import Naesala.Lockfree.List

/-!
# What a step of `LockfreeList` can do

`State.advance` has a case for each place of a call, but what the cases do to memory is of few
kinds. Most of them only load, compare or copy (`Reads`); some draw a word from `combine` (`Draws`);
some try to swing `_tail` (`Swings`). There are five more: a node is linked, the list is found to be
empty, a payload is claimed, it is written to the node that is removed, and that is reset.

`Stepped` says this once, with what the step has tested. What a step preserves is proved by kinds,
and what a thread knows at its next place along the edges of the first three relations.
-/

namespace Naesala

namespace LockfreeList

variable {τ δ : Type} {s s' : State τ δ} {t : τ} {spurious : Bool}

/-- From place to place by a load, a test or a copy, or by a weak compare-exchange that fails. -/
inductive Reads (s : State τ δ) (spurious : Bool) : Pc δ → Pc δ → Prop
  | tail {node : Ptr} : Reads s spurious (.putTail node) (.putNext node s.tail)
  | lags {node : Ptr} {tail : Word} : pointer (s.next (pointer tail)) ≠ 0 →
      Reads s spurious (.putNext node tail) (.putAdvance node tail (s.next (pointer tail)))
  | last {node : Ptr} {tail : Word} : pointer (s.next (pointer tail)) = 0 →
      Reads s spurious (.putNext node tail) (.putCombine node tail (s.next (pointer tail)))
  | linkFails {node : Ptr} {tail tailNext newNext : Word} :
      s.next (pointer tail) ≠ tailNext ∨ spurious = true →
      Reads s spurious (.putLink node tail tailNext newNext) (.putTail node)
  | head : Reads s spurious .takeHead (.takeTail s.head)
  | headTail {head : Word} : Reads s spurious (.takeTail head) (.takeNext head s.tail)
  | headNext {head tail : Word} : Reads s spurious (.takeNext head tail)
      (.takeCheck head tail (s.next (pointer head)))
  | moved {head tail headNext : Word} : head ≠ s.head →
      Reads s spurious (.takeCheck head tail headNext) .takeHead
  | behind {head tail headNext : Word} : head = s.head → pointer head = pointer tail →
      pointer headNext ≠ 0 →
      Reads s spurious (.takeCheck head tail headNext) (.takeAdvance tail headNext)
  | alone {head tail headNext : Word} : head = s.head → pointer head ≠ pointer tail →
      pointer headNext = 0 → Reads s spurious (.takeCheck head tail headNext) .takeHead
  | filled {head tail headNext : Word} : head = s.head → pointer head ≠ pointer tail →
      pointer headNext ≠ 0 →
      Reads s spurious (.takeCheck head tail headNext) (.takeCopy head headNext)
  | copy {head headNext : Word} : Reads s spurious (.takeCopy head headNext)
      (.takeCombine head headNext (s.data (pointer headNext)))
  | claimFails {head headNext newHead : Word} {bytes : δ} : s.head ≠ head ∨ spurious = true →
      Reads s spurious (.takeCas head headNext bytes newHead) .takeHead

/-- The places where `combine` is called, with its argument, and where its result takes them. -/
inductive Draws : Pc δ → Ptr → (Word → Pc δ) → Prop
  | lags {node : Ptr} {tail tailNext : Word} :
      Draws (.putAdvance node tail tailNext) (pointer tailNext) (.putAdvanceCas node tail)
  | link {node : Ptr} {tail tailNext : Word} :
      Draws (.putCombine node tail tailNext) node (.putLink node tail tailNext)
  | swing {node : Ptr} {tail : Word} : Draws (.putSwing node tail) node (.putSwingCas tail)
  | behind {tail headNext : Word} :
      Draws (.takeAdvance tail headNext) (pointer headNext) (.takeAdvanceCas tail)
  | claim {head headNext : Word} {bytes : δ} : Draws (.takeCombine head headNext bytes)
      (pointer headNext) (.takeCas head headNext bytes)

/-- The places of a compare-exchange on `_tail`, with its words, and where they lead. -/
inductive Swings : Pc δ → Word → Word → Pc δ → Prop
  | lags {node : Ptr} {tail newTail : Word} :
      Swings (.putAdvanceCas node tail newTail) tail newTail (.putTail node)
  | linked {tail newTail : Word} : Swings (.putSwingCas tail newTail) tail newTail .idle
  | behind {tail newTail : Word} : Swings (.takeAdvanceCas tail newTail) tail newTail .takeHead

variable [DecidableEq τ]

/-- **What a step of thread `t` can do.** -/
inductive Stepped (s : State τ δ) (t : τ) (spurious : Bool) : State τ δ → Prop
  | reads {pc : Pc δ} : Reads s spurious (s.pc t) pc → Stepped s t spurious (s.goto t pc)
  | draws {p : Ptr} {next : Word → Pc δ} : Draws (s.pc t) p next →
      Stepped s t spurious ((s.combined p).1.goto t (next (combine p s.version)))
  | swings {tail newTail : Word} {pc : Pc δ} : Swings (s.pc t) tail newTail pc →
      Stepped s t spurious ((s.casTail tail newTail).goto t pc)
  | links {node : Ptr} {tail tailNext newNext : Word} :
      s.pc t = .putLink node tail tailNext newNext → s.next (pointer tail) = tailNext →
      spurious = false →
      Stepped s t spurious ((((s.setNext (pointer tail) newNext).record
        (.link t (s.data node))).setOwns t node false).goto t (.putSwing node tail))
  | empty {head tail headNext : Word} : s.pc t = .takeCheck head tail headNext → head = s.head →
      pointer head = pointer tail → pointer headNext = 0 →
      Stepped s t spurious ((s.record (.empty t)).goto t .idle)
  | claims {head headNext newHead : Word} {bytes : δ} :
      s.pc t = .takeCas head headNext bytes newHead → s.head = head → spurious = false →
      Stepped s t spurious ((({ s with head := newHead }.record (.claim t bytes)).setOwns t
        (pointer head) true).goto t (.takeWrite (pointer head) bytes))
  | writes {head : Ptr} {bytes : δ} : s.pc t = .takeWrite head bytes →
      Stepped s t spurious ((s.setData head bytes).goto t (.takeReset head))
  | resets {head : Ptr} : s.pc t = .takeReset head →
      Stepped s t spurious ((s.setNext head 0).goto t .idle)

theorem stepped_of_advance (hst : s.advance t spurious = some s') : Stepped s t spurious s' := by
  unfold State.advance at hst
  cases hpc : s.pc t with
  | idle => simp [hpc] at hst
  | putTail node =>
    simp only [hpc] at hst
    cases hst
    exact .reads (hpc ▸ .tail)
  | putNext node tail =>
    simp only [hpc] at hst
    split_ifs at hst with hnull
    · cases hst
      exact .reads (hpc ▸ .lags hnull)
    · cases hst
      exact .reads (hpc ▸ .last (not_not.1 hnull))
  | putAdvance node tail tailNext =>
    simp only [hpc] at hst
    cases hst
    exact .draws (hpc ▸ .lags)
  | putAdvanceCas node tail newTail =>
    simp only [hpc] at hst
    cases hst
    exact .swings (hpc ▸ .lags)
  | putCombine node tail tailNext =>
    simp only [hpc] at hst
    cases hst
    exact .draws (hpc ▸ .link)
  | putLink node tail tailNext newNext =>
    simp only [hpc] at hst
    split_ifs at hst with hcas
    · cases hst
      exact .links hpc hcas.1 hcas.2
    · cases hst
      exact .reads (hpc ▸ .linkFails ((not_and_or.1 hcas).imp_right eq_true_of_ne_false))
  | putSwing node tail =>
    simp only [hpc] at hst
    cases hst
    exact .draws (hpc ▸ .swing)
  | putSwingCas tail newTail =>
    simp only [hpc] at hst
    cases hst
    exact .swings (hpc ▸ .linked)
  | takeHead =>
    simp only [hpc] at hst
    cases hst
    exact .reads (hpc ▸ .head)
  | takeTail head =>
    simp only [hpc] at hst
    cases hst
    exact .reads (hpc ▸ .headTail)
  | takeNext head tail =>
    simp only [hpc] at hst
    cases hst
    exact .reads (hpc ▸ .headNext)
  | takeCheck head tail headNext =>
    simp only [hpc] at hst
    split_ifs at hst with hmoved hsame hempty hnull
    · cases hst
      exact .reads (hpc ▸ .moved hmoved)
    · cases hst
      exact .empty hpc (not_not.1 hmoved) hsame hempty
    · cases hst
      exact .reads (hpc ▸ .behind (not_not.1 hmoved) hsame hempty)
    · cases hst
      exact .reads (hpc ▸ .alone (not_not.1 hmoved) hsame hnull)
    · cases hst
      exact .reads (hpc ▸ .filled (not_not.1 hmoved) hsame hnull)
  | takeAdvance tail headNext =>
    simp only [hpc] at hst
    cases hst
    exact .draws (hpc ▸ .behind)
  | takeAdvanceCas tail newTail =>
    simp only [hpc] at hst
    cases hst
    exact .swings (hpc ▸ .behind)
  | takeCopy head headNext =>
    simp only [hpc] at hst
    cases hst
    exact .reads (hpc ▸ .copy)
  | takeCombine head headNext bytes =>
    simp only [hpc] at hst
    cases hst
    exact .draws (hpc ▸ .claim)
  | takeCas head headNext bytes newHead =>
    simp only [hpc] at hst
    split_ifs at hst with hcas
    · cases hst
      exact .claims hpc hcas.1 hcas.2
    · cases hst
      exact .reads (hpc ▸ .claimFails ((not_and_or.1 hcas).imp_right eq_true_of_ne_false))
  | takeWrite head bytes =>
    simp only [hpc] at hst
    cases hst
    exact .writes hpc
  | takeReset head =>
    simp only [hpc] at hst
    cases hst
    exact .resets hpc

end LockfreeList

end Naesala
