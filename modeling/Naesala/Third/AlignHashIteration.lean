import Mathlib.Data.List.GetD
import Naesala.Third.AlignHashProof

/-!
# Iterating over `align_hash_map`

`operator++` tests whether there is data at `end` before it sees that it is there, and a table with
32 buckets or more has no flags for that. What is in memory after the flags does not matter to where
the iterator stops.

**Theorem (`traverse_pairs`).** Whatever that is, a loop from `begin` to `end` visits every element
once, as long as no call has lost one.
-/

namespace Naesala

namespace AlignHash

open Slots

variable {K V : Type} {P : Probing} {hashfn : K → ℕ} {t : AlignHash K V} {beyond : BitVec 64}
variable {fuel i n : ℕ}

theorem isEither_append (flag : Flags) (beyond : BitVec 64) (hi : i < 32 * flag.length) :
    Flags.isEither (flag ++ [beyond]) i = flag.isEither i := by
  have hword : Flags.word (flag ++ [beyond]) i = flag.word i := by
    have hlt : i >>> 5 < flag.length := by rw [Nat.shiftRight_eq_div_pow]; omega
    rw [Flags.word, Flags.word, List.getD_append _ _ _ _ hlt]
  rw [Flags.isEither, Flags.isEither, hword]

theorem Formed.exist_eq (h : Formed P hashfn t) (beyond : BitVec 64) (hi : i < t.nbucket) :
    t.exist beyond i = (t.bucketAt i).isSome := by
  rw [exist, isEither_append _ _ (hi.trans_le h.flags_length), bucketAt]
  cases hflag : t.flags.isEither i with
  | true => simp
  | false => simp [h.bucket_some i hi hflag]

/-- Where an iterator stops that goes on from `i`, with `n` buckets left. -/
def seek (beyond : BitVec 64) (t : AlignHash K V) (n i : ℕ) : Option ℕ :=
  scan (fun i => !t.exist beyond i && i ≠ t.nbucket) (· + 1) (n + 1) i

/-- More tests do not change where it stops. -/
theorem scan_of_seek {r : ℕ} (h : seek beyond t n i = some r) (hn : n ≤ fuel) :
    scan (fun i => !t.exist beyond i && i ≠ t.nbucket) (· + 1) (fuel + 1) i = some r := by
  obtain ⟨d, hd, hr, hstop, hbefore⟩ := Cyclic.scan_eq_some_iff.1 h
  exact Cyclic.scan_eq_some_iff.2 ⟨d, by omega, hr, hstop, hbefore⟩

/-- From bucket `i` on, with `n` buckets left, the iterator visits those with data. -/
theorem visit_seek (hn : i + n = t.nbucket) (hfuel : n < fuel) :
    ∃ r, seek beyond t n i = some r ∧
      t.visit beyond fuel r = some ((List.range' i n).filter (t.exist beyond)) := by
  obtain ⟨fuel, rfl⟩ : ∃ k, fuel = k + 1 := ⟨fuel - 1, by omega⟩
  induction n generalizing i fuel with
  | zero =>
    have hi : i = t.nbucket := by omega
    refine ⟨i, by simp [seek, scan, hi], ?_⟩
    rw [visit, if_pos hi]
    rfl
  | succ n ih =>
    have hne : i ≠ t.nbucket := by omega
    rw [List.range'_succ]
    cases hexist : t.exist beyond i with
    | true =>
      obtain ⟨fuel, rfl⟩ : ∃ k, fuel = k + 1 := ⟨fuel - 1, by omega⟩
      obtain ⟨r, hseek, hvisit⟩ := ih (i := i + 1) (by omega) fuel (by omega)
      refine ⟨i, by simp [seek, scan, hexist], ?_⟩
      rw [visit, if_neg hne, increment, if_pos hne, scan_of_seek hseek (by omega),
        List.filter_cons_of_pos hexist]
      simp [hvisit]
    | false =>
      obtain ⟨r, hseek, hvisit⟩ := ih (i := i + 1) (by omega) fuel (by omega)
      refine ⟨r, ?_, by rw [hvisit, List.filter_cons_of_neg (by simp [hexist])]⟩
      rw [seek, scan, if_pos (by simp [hexist, hne])]
      exact hseek

theorem begin_eq (beyond : BitVec 64) (t : AlignHash K V) :
    t.begin beyond = seek beyond t t.nbucket 0 := by
  rw [begin, seek]
  simp only [Bool.and_comm]

/-- What the buckets in a list have. -/
theorem map_filter_exist (h : Formed P hashfn t) (hn : n ≤ t.nbucket) :
    ((((List.range n).filter (t.exist beyond)).map fun itr =>
      (keyAt t.keys itr, t.vals.getD itr none) : List _) : Multiset (Option K × Option V)) =
      (content n t.bucketAt).map fun p => (some p.1, some p.2) := by
  induction n with
  | zero => rfl
  | succ n ih =>
    rw [List.range_succ, List.filter_append, List.map_append, ← Multiset.coe_add, ih (by omega),
      content_succ, Multiset.map_add, add_comm]
    refine congrArg (· + _) ?_
    have hexist := h.exist_eq beyond (show n < t.nbucket by omega)
    cases hp : t.bucketAt n with
    | none =>
      rw [hp] at hexist
      rw [List.filter_singleton, hexist]
      rfl
    | some p =>
      rw [hp] at hexist
      obtain ⟨-, hkey, hval⟩ := bucketAt_eq_some.1 hp
      rw [List.filter_singleton, hexist]
      simp only [Option.isSome_some, cond_true, List.map_singleton, hkey, hval]
      rfl

/-- **A loop from `begin` to `end`** ends, and visits every element of the map once, whatever is in
memory after the flags. -/
theorem traverse_pairs [DecidableEq K] [Inhabited V] {m : Finmap fun _ : K => V}
    (hs : (paired K V P hashfn).Reach (Lossless P hashfn) (t, m)) (beyond : BitVec 64) :
    ∃ l, t.traverse beyond = some l ∧
      (l : Multiset (Option K × Option V)) = (m.pairs id).map fun p => (some p.1, some p.2) := by
  have hR := represents_of_reach hs
  obtain ⟨r, hseek, hvisit⟩ : ∃ r, seek beyond t t.nbucket 0 = some r ∧
      t.visit beyond (t.nbucket + 1) r = some ((List.range' 0 t.nbucket).filter (t.exist beyond)) :=
    visit_seek (Nat.zero_add _) (Nat.lt_succ_self _)
  rw [← List.range_eq_range'] at hvisit
  refine ⟨((List.range t.nbucket).filter (t.exist beyond)).map fun itr =>
    (keyAt t.keys itr, t.vals.getD itr none), ?_, ?_⟩
  · rw [traverse, begin_eq, hseek]
    simp only [Option.bind_eq_bind, Option.bind_some, hvisit]
  · rw [← hR.elements]
    exact map_filter_exist hR.formed le_rfl

/-- The loop over a table with one element in four buckets. -/
theorem traverse_pairs_one : ∃ t m,
    (paired ℕ ℕ linear id).Reach (Lossless linear id) (t, m) ∧ t.nbucket = 4 ∧
      ∀ beyond, t.traverse beyond = some [(some 15, some 150)] := by
  have hrun : ∃ t m, (paired ℕ ℕ linear id).Reach (Lossless linear id) (t, m) ∧ t.nbucket = 4 ∧
      m.pairs id = {(15, 150)} :=
    ⟨_, _, (paired ℕ ℕ linear id).reach_of_run _
      [.insert 7 70 false .ample, .insert 15 150 false .ample, .erase 7] rfl, by decide, by decide⟩
  obtain ⟨t, m, hs, hn, hpairs⟩ := hrun
  refine ⟨t, m, hs, hn, fun beyond => ?_⟩
  obtain ⟨l, htraverse, hl⟩ := traverse_pairs hs beyond
  rw [hpairs, Multiset.map_singleton, Multiset.coe_eq_singleton] at hl
  rw [htraverse, hl]

end AlignHash

end Naesala
