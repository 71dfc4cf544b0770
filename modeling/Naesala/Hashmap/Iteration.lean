import Naesala.Hashmap.Counters

/-!
# Iteration

`begin`, `++` and `end` visit the existing buckets in slot order. `existing` lists the pairs of
those buckets straight from the array; `traverse_eq` says that the iterator visits that list.
-/

namespace Naesala.LinearHashmap

variable {K V : Type} [DecidableEq K] {h : LinearHashmap K V} {index fuel n : ℕ}

/-- The key and the mapped object of a bucket. -/
def pair (b : Bucket K V) : K × Option V := (b.first, b.second)

/-- The pairs of the buckets in a list that exist, `sentinel` telling the marks apart. -/
def existingIn (sentinel : K → Bool) (bs : List (Bucket K V)) : List (K × Option V) :=
  (bs.filter fun b => !sentinel b.first).map pair

/-- The pairs of the existing buckets, in slot order. -/
def existing (h : LinearHashmap K V) : List (K × Option V) := existingIn h.isSentinel h.buckets

omit [DecidableEq K] in
theorem existingIn_cons_of_sentinel {sentinel : K → Bool} {b : Bucket K V}
    (hb : sentinel b.first = true) (bs : List (Bucket K V)) :
    existingIn sentinel (b :: bs) = existingIn sentinel bs := by
  simp [existingIn, hb]

omit [DecidableEq K] in
theorem existingIn_cons_of_exists {sentinel : K → Bool} {b : Bucket K V}
    (hb : sentinel b.first = false) (bs : List (Bucket K V)) :
    existingIn sentinel (b :: bs) = pair b :: existingIn sentinel bs := by
  simp [existingIn, hb]

theorem map_fst_existing (h : LinearHashmap K V) :
    h.existing.map Prod.fst = h.keys.filter fun k => !h.isSentinel k := by
  rw [existing, existingIn, keys, List.map_map, List.filter_map]
  rfl

theorem existsCount_eq_length (h : LinearHashmap K V) : h.existsCount = h.existing.length := by
  rw [← List.length_map (f := Prod.fst), map_fst_existing, existsCount,
    List.countP_eq_length_filter]

theorem seek_eq_of_exists (he : h.existsAt index = true) : h.seek fuel index = index := by
  cases fuel with
  | zero => rfl
  | succ fuel => rw [seek, if_pos he]

theorem visit_end : h.visit fuel h.bucketCount = [] := by
  cases fuel with
  | zero => rfl
  | succ fuel => rw [visit, if_pos rfl]

/-- From bucket `index` on, with `n` buckets left, the iterator visits what the rest of the
array holds. -/
theorem map_visit_seek (hlen : h.buckets.length = h.bucketCount) (hn : index + n = h.bucketCount)
    (hfuel : n < fuel) :
    (h.visit fuel (h.seek n index)).map (fun i => (h.keyAt i, h.valueAt i)) =
      existingIn h.isSentinel (h.buckets.drop index) := by
  induction n generalizing index fuel with
  | zero =>
    have hi : index = h.bucketCount := by omega
    rw [seek, hi, visit_end, List.drop_of_length_le (by omega)]
    rfl
  | succ n ih =>
    have hlt : index < h.buckets.length := by omega
    have hkey := keyAt_eq_first hlt
    have hvalue : h.valueAt index = h.buckets[index].second := by simp [valueAt, hlt]
    rw [List.drop_eq_getElem_cons hlt]
    cases he : h.existsAt index with
    | true =>
      obtain ⟨fuel, rfl⟩ : ∃ k, fuel = k + 1 := ⟨fuel - 1, by omega⟩
      have hsent : h.isSentinel h.buckets[index].first = false := by
        rw [← hkey]
        simpa [existsAt_eq] using he
      have hinc : h.increment index = h.seek n (index + 1) := by
        rw [increment, if_pos (by omega), show h.bucketCount - (index + 1) = n by omega]
      rw [seek_eq_of_exists he, visit, if_neg (by omega), List.map_cons, hinc,
        ih (by omega) (by omega), existingIn_cons_of_exists hsent, hkey, hvalue]
      rfl
    | false =>
      have hsent : h.isSentinel h.buckets[index].first = true := by
        rw [← hkey]
        simpa [existsAt_eq] using he
      rw [seek, if_neg (by simp [he]), ih (by omega) (by omega),
        existingIn_cons_of_sentinel hsent]

/-- **The iterator visits the existing buckets**, in slot order. -/
theorem traverse_eq (hlen : h.buckets.length = h.bucketCount) : h.traverse = h.existing := by
  rw [traverse, begin, map_visit_seek hlen (Nat.zero_add _) (Nat.lt_succ_self _), List.drop_zero]
  rfl

end Naesala.LinearHashmap
