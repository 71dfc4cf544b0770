import Naesala.Lockfree.Stack

/-!
# What a step of `LockfreeStack` can do

A step loads something, or fails to exchange `_top` (`Reads`); or it draws a word from `combine`,
writes `next` of the node that is pushed, exchanges `_top`, or finds it null. `Stepped` says this
once, with what the step has tested.
-/

namespace Naesala

namespace LockfreeStack

variable {τ : Type} {s s' : State τ} {t : τ} {spurious : Bool}

/-- From place to place by a load, or by a compare-exchange that fails. -/
inductive Reads (s : State τ) (spurious : Bool) : Pc → Pc → Prop
  | pushTop {node : Ptr} {w : Word} :
      Reads s spurious (.pushLoad node w) (.pushNext node w s.top)
  | pushFails {node : Ptr} {w last : Word} : s.top ≠ last ∨ spurious = true →
      Reads s spurious (.pushCas node w last) (.pushLoad node w)
  | popTop : pointer s.top ≠ 0 → Reads s spurious .popLoad (.popNext s.top)
  | next {top : Word} :
      Reads s spurious (.popNext top) (.popCombine top (s.next (pointer top)))
  | popFails {top w : Word} : s.top ≠ top ∨ spurious = true →
      Reads s spurious (.popCas top w) .popLoad

variable [DecidableEq τ]

/-- **What a step of thread `t` can do.** -/
inductive Stepped (s : State τ) (t : τ) (spurious : Bool) : State τ → Prop
  | reads {pc : Pc} : Reads s spurious (s.pc t) pc → Stepped s t spurious (s.goto t pc)
  | drawsPush {node : Ptr} {w : Word} : s.pc t = .pushCombine node →
      w = combine node s.pushVersion → Stepped s t spurious
        (({ s with pushVersion := s.pushVersion + 1 }.issue node w).goto t (.pushLoad node w))
  | drawsPop {top w : Word} {next : Ptr} : s.pc t = .popCombine top next →
      w = combine next s.popVersion → Stepped s t spurious
        (({ s with popVersion := s.popVersion + 1 }.issue next w).goto t (.popCas top w))
  | writes {node : Ptr} {w last : Word} : s.pc t = .pushNext node w last →
      Stepped s t spurious ((s.setNext node (pointer last)).goto t (.pushCas node w last))
  | pushes {node : Ptr} {w : Word} : s.pc t = .pushCas node w s.top → spurious = false →
      Stepped s t spurious
        ((({ s with top := w }.record (.push t node)).setOwns t node false).goto t .idle)
  | pops {w : Word} : s.pc t = .popCas s.top w → spurious = false → Stepped s t spurious
      ((({ s with top := w }.record (.pop t (pointer s.top))).setOwns t (pointer s.top) true).goto t
        .idle)
  | popsNull : s.pc t = .popLoad → pointer s.top = 0 →
      Stepped s t spurious ((s.record (.popNull t)).goto t .idle)

theorem stepped_of_advance (hst : s.advance t spurious = some s') : Stepped s t spurious s' := by
  have hfails : ∀ {w : Word}, ¬ (s.top = w ∧ spurious = false) → s.top ≠ w ∨ spurious = true :=
    fun hnot => (not_and_or.1 hnot).imp_right eq_true_of_ne_false
  unfold State.advance at hst
  cases hpc : s.pc t with
  | idle => simp [hpc] at hst
  | pushCombine node =>
    simp only [hpc] at hst
    cases hst
    exact .drawsPush hpc rfl
  | pushLoad node w =>
    simp only [hpc] at hst
    cases hst
    exact .reads (hpc ▸ .pushTop)
  | pushNext node w last =>
    simp only [hpc] at hst
    cases hst
    exact .writes hpc
  | pushCas node w last =>
    simp only [hpc] at hst
    split_ifs at hst with hcas
    · cases hst
      obtain ⟨rfl, hnot⟩ := hcas
      exact .pushes hpc hnot
    · cases hst
      exact .reads (hpc ▸ .pushFails (hfails hcas))
  | popLoad =>
    simp only [hpc] at hst
    split_ifs at hst with hnull
    · cases hst
      exact .popsNull hpc hnull
    · cases hst
      exact .reads (hpc ▸ .popTop hnull)
  | popNext top =>
    simp only [hpc] at hst
    cases hst
    exact .reads (hpc ▸ .next)
  | popCombine top next =>
    simp only [hpc] at hst
    cases hst
    exact .drawsPop hpc rfl
  | popCas top w =>
    simp only [hpc] at hst
    split_ifs at hst with hcas
    · cases hst
      obtain ⟨rfl, hnot⟩ := hcas
      exact .pops hpc hnot
    · cases hst
      exact .reads (hpc ▸ .popFails (hfails hcas))

end LockfreeStack

end Naesala
