import Naesala.LockfreePool.LockfreeSlabPool

/-!
# What a step of `incr_ref` and `decr_ref` can do

Most steps only load the counter, test what they have loaded, or fail to exchange it (`Reads`). Two
take `BACKING` to `0` (`Resets`): the one with which `incr_ref` helps, and that of the `decr_ref`
that has put `BACKING` there. The other four are the ones that count: a reference is taken, one of
several is given up, the last one is given up, and the block is pushed.

`Stepped` says this once, with what the step has tested.
-/

namespace Naesala

namespace LockfreeSlabPool

variable {τ β : Type} [DecidableEq β]

/-- From place to place in a call on block `b`, by a load or a test, or by a compare-exchange that
fails. -/
inductive Reads (count : β → ℤ) (spurious : Bool) (b : β) : Pc β → Pc β → Prop
  | vacant : count b = backing → Reads count spurious b (.incrLoad b) (.incrHelp b)
  | load : count b ≠ backing → Reads count spurious b (.incrLoad b) (.incrCas b (count b))
  | helpFails : count b ≠ backing → Reads count spurious b (.incrHelp b) (.incrCas b (count b))
  | incrFails {last : ℤ} : count b ≠ last ∨ spurious = true →
      Reads count spurious b (.incrCas b last) (.incrLoad b)
  | drop : Reads count spurious b (.decrLoad b) (.decrAssert b (count b))
  | last : Reads count spurious b (.decrAssert b 1) (.decrMark b)
  | notLast {last : ℤ} : last ≠ backing → last ≠ 1 →
      Reads count spurious b (.decrAssert b last) (.decrCas b last)
  | markFails : count b ≠ 1 ∨ spurious = true →
      Reads count spurious b (.decrMark b) (.decrLoad b)
  | resetFails : count b ≠ backing → Reads count spurious b (.decrReset b) .idle
  | decrFails {last : ℤ} : count b ≠ last ∨ spurious = true →
      Reads count spurious b (.decrCas b last) (.decrLoad b)

/-- The places of a compare-exchange of `BACKING` with `0`, and where it leads if it succeeds. -/
inductive Resets (b : β) : Pc β → Pc β → Prop
  | help : Resets b (.incrHelp b) (.incrCas b backing)
  | own : Resets b (.decrReset b) .idle

variable [DecidableEq τ] {s s' : State τ β} {t : τ} {spurious : Bool}

/-- **What a step of thread `t` can do.** -/
inductive Stepped (s : State τ β) (t : τ) (spurious : Bool) : State τ β → Prop
  | reads {b : β} {pc : Pc β} : Reads s.userCount spurious b (s.pc t) pc →
      Stepped s t spurious (s.goto t pc)
  | resets {b : β} {pc : Pc β} : Resets b (s.pc t) pc → s.userCount b = backing →
      Stepped s t spurious ((s.setCount b 0).goto t pc)
  | acquires {b : β} {last : ℤ} : s.pc t = .incrCas b last → s.userCount b = last →
      spurious = false → Stepped s t spurious (((s.setCount b (last + 1)).acquire b).goto t .idle)
  | falls {b : β} : s.pc t = .decrMark b → s.userCount b = 1 → spurious = false →
      Stepped s t spurious (((s.setCount b backing).fall b).goto t (.decrBack b))
  | backs {b : β} : s.pc t = .decrBack b →
      Stepped s t spurious ((s.back b).goto t (.decrReset b))
  | releases {b : β} {last : ℤ} : s.pc t = .decrCas b last → s.userCount b = last →
      spurious = false → Stepped s t spurious (((s.setCount b (last - 1)).release b).goto t .idle)

theorem stepped_of_advance (hst : s.advance t spurious = some s') : Stepped s t spurious s' := by
  have hfails : ∀ {b : β} {n : ℤ}, ¬ (s.userCount b = n ∧ spurious = false) →
      s.userCount b ≠ n ∨ spurious = true :=
    fun hnot => (not_and_or.1 hnot).imp_right eq_true_of_ne_false
  unfold State.advance at hst
  cases hpc : s.pc t with
  | idle => simp [hpc] at hst
  | incrLoad b =>
    simp only [hpc] at hst
    split_ifs at hst with hcount
    · cases hst
      exact .reads (b := b) (hpc ▸ .vacant hcount)
    · cases hst
      exact .reads (b := b) (hpc ▸ .load hcount)
  | incrHelp b =>
    simp only [hpc] at hst
    split_ifs at hst with hcount
    · cases hst
      exact .resets (b := b) (hpc ▸ .help) hcount
    · cases hst
      exact .reads (b := b) (hpc ▸ .helpFails hcount)
  | incrCas b last =>
    simp only [hpc] at hst
    split_ifs at hst with hover hcas
    · cases hst
      exact .acquires hpc hcas.1 hcas.2
    · cases hst
      exact .reads (b := b) (hpc ▸ .incrFails (hfails hcas))
  | decrLoad b =>
    simp only [hpc] at hst
    cases hst
    exact .reads (b := b) (hpc ▸ .drop)
  | decrAssert b last =>
    simp only [hpc] at hst
    split_ifs at hst with hback hone
    · cases hst
      exact .reads (b := b) (hpc ▸ hone ▸ .last)
    · cases hst
      exact .reads (b := b) (hpc ▸ .notLast hback hone)
  | decrMark b =>
    simp only [hpc] at hst
    split_ifs at hst with hcas
    · cases hst
      exact .falls hpc hcas.1 hcas.2
    · cases hst
      exact .reads (b := b) (hpc ▸ .markFails (hfails hcas))
  | decrBack b =>
    simp only [hpc] at hst
    cases hst
    exact .backs hpc
  | decrReset b =>
    simp only [hpc] at hst
    split_ifs at hst with hcount
    · cases hst
      exact .resets (b := b) (hpc ▸ .own) hcount
    · cases hst
      exact .reads (b := b) (hpc ▸ .resetFails hcount)
  | decrCas b last =>
    simp only [hpc] at hst
    split_ifs at hst with hover hcas
    · cases hst
      exact .releases hpc hcas.1 hcas.2
    · cases hst
      exact .reads (b := b) (hpc ▸ .decrFails (hfails hcas))

end LockfreeSlabPool

end Naesala
