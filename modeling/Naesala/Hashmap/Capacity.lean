import Mathlib.Order.Bounds.Basic
import Naesala.Hashmap.Counters

/-!
# Which capacities are honoured

A constructor rounds the requested capacity up with `NextPowTwo`, and so does the constructor of
the table that `Resize` moves the entries to. The request goes in as a `size_t`, is cut to a
32-bit `unsigned`, and comes out as an `int`; both conversions are silent. Within `2 ^ 30` the
result is the least power of two that is large enough. Above, the `unsigned` is too small for the
request or the `int` is negative, so what comes out is below the request or a huge `size_t`.

**Theorem (`honoured_iff`).** Up to `2 ^ 62`, the constructors honour exactly the requests of at
most `2 ^ 30` buckets, and a table of `2 ^ j` buckets can be doubled exactly if `j < 30`.
-/

namespace Naesala

/-! ## Rounding up -/

theorem findLastSet_le_iff {x k : ℕ} : findLastSet x ≤ k ↔ x < 2 ^ k := by
  unfold findLastSet
  split_ifs with hx
  · rw [Nat.succ_le_iff, Nat.log2_lt hx]
  · have hpos : 0 < 2 ^ k := Nat.two_pow_pos k
    omega

theorem findLastSet_pred {x : ℕ} (hx : 1 ≤ x) : findLastSet (x - 1) = Nat.clog 2 x := by
  refine eq_of_forall_ge_iff fun k => ?_
  rw [findLastSet_le_iff, Nat.clog_le_iff_le_pow (by omega)]
  omega

theorem nextPowTwo_of_le {n : ℕ} (hn : 1 ≤ n) (hle : n ≤ 2 ^ 30) :
    nextPowTwo n = 2 ^ Nat.clog 2 n := by
  have hmod : n % 2 ^ 32 = n := Nat.mod_eq_of_lt (by omega)
  have hclog : Nat.clog 2 n ≤ 30 := Nat.clog_le_of_le_pow hle
  have hlt : 2 ^ Nat.clog 2 n < 2 ^ 31 := Nat.pow_lt_pow_right (by omega) (by omega)
  simp only [nextPowTwo, hmod]
  rw [if_pos (by omega), Nat.one_shiftLeft, findLastSet_pred hn, intToSizeT_of_lt hlt]

/-- The least power of two that is at least `n`. -/
def LeastPowTwo (n p : ℕ) : Prop := IsLeast {q | (∃ k, q = 2 ^ k) ∧ n ≤ q} p

theorem leastPowTwo_clog (n : ℕ) : LeastPowTwo n (2 ^ Nat.clog 2 n) := by
  refine ⟨⟨⟨_, rfl⟩, Nat.le_pow_clog (by omega) n⟩, fun q hq => ?_⟩
  obtain ⟨⟨k, rfl⟩, hk⟩ := hq
  exact Nat.pow_le_pow_right (by omega) (Nat.clog_le_of_le_pow hk)

/-- Whatever the request, what comes out is at most `2 ^ 30`, or the `size_t` of the least
`int`. -/
theorem nextPowTwo_range (n : ℕ) : nextPowTwo n ≤ 2 ^ 30 ∨ nextPowTwo n = 2 ^ 64 - 2 ^ 31 := by
  unfold nextPowTwo
  by_cases hx : n % 2 ^ 32 = 0
  · rw [hx]
    exact Or.inl (by decide)
  · simp only [ne_eq, hx, not_false_eq_true, if_true, Nat.one_shiftLeft]
    have hf : findLastSet (n % 2 ^ 32 - 1) ≤ 32 := findLastSet_le (by omega)
    generalize findLastSet (n % 2 ^ 32 - 1) = f at hf ⊢
    by_cases hle : f ≤ 30
    · have hlt : 2 ^ f < 2 ^ 31 := Nat.pow_lt_pow_right (by omega) (by omega)
      rw [intToSizeT_of_lt hlt]
      exact Or.inl (Nat.pow_le_pow_right (by omega) hle)
    · have hf' : f = 31 ∨ f = 32 := by omega
      rcases hf' with rfl | rfl
      · exact Or.inr (by decide)
      · exact Or.inl (by decide)

/-- **Up to `2 ^ 30` and no further.** -/
theorem leastPowTwo_nextPowTwo_iff {n : ℕ} (hn : 1 ≤ n) (hn' : n ≤ 2 ^ 62) :
    LeastPowTwo n (nextPowTwo n) ↔ n ≤ 2 ^ 30 := by
  constructor
  · intro hleast
    by_contra hlt
    rcases nextPowTwo_range n with hle | heq
    · exact hlt (hleast.1.2.trans hle)
    · -- `2 ^ 62` would do as well, and is smaller
      have hbound := hleast.2 ⟨⟨62, rfl⟩, hn'⟩
      rw [heq] at hbound
      exact absurd hbound (by decide)
  · intro hle
    rw [nextPowTwo_of_le hn hle]
    exact leastPowTwo_clog n

theorem nextPowTwo_two_pow_iff {j : ℕ} (hj : j ≤ 62) : nextPowTwo (2 ^ j) = 2 ^ j ↔ j ≤ 30 := by
  have hpos : 1 ≤ 2 ^ j := Nat.one_le_two_pow
  have hle : 2 ^ j ≤ 2 ^ 62 := Nat.pow_le_pow_right (by omega) hj
  constructor
  · intro heq
    have hleast : LeastPowTwo (2 ^ j) (nextPowTwo (2 ^ j)) := by
      rw [heq]
      exact ⟨⟨⟨j, rfl⟩, Nat.le_refl _⟩, fun q hq => hq.2⟩
    exact (Nat.pow_le_pow_iff_right (by omega)).1 ((leastPowTwo_nextPowTwo_iff hpos hle).1 hleast)
  · exact nextPowTwo_two_pow

namespace LinearHashmap

variable {K V : Type} [DecidableEq K] {h : LinearHashmap K V}

/-! ## The constructors and `Resize` -/

theorem construct_eq {n : ℕ} (hn : n ≠ 0) {e d : K} (hed : e ≠ d) :
    construct (V := V) n e d = some ((blank e d).firstResize (nextPowTwo n)) := by
  rw [construct, if_neg hed, if_pos hn]

/-- The table that `Resize` of a table with buckets moves the entries to. -/
def replacement (h : LinearHashmap K V) (newBucketCount : ℕ) : Option (LinearHashmap K V) :=
  construct newBucketCount h.emptyKey h.erasedKey

/-- The loop of `Resize` and its `swap`, once the replacement is built. -/
def moveAll (set : LinearHashmap K V → K → V → Bool → Option (LinearHashmap K V × ℕ))
    (h newLh : LinearHashmap K V) : Option (LinearHashmap K V) :=
  (h.buckets.foldlM (moveInto set h) newLh).bind fun newLh => (swap h newLh).map Prod.fst

/-- `Resize` builds the replacement first. -/
theorem resizeWith_eq (h0 : h.bucketCount ≠ 0)
    (set : LinearHashmap K V → K → V → Bool → Option (LinearHashmap K V × ℕ)) (n : ℕ) :
    resizeWith set h n = (h.replacement n).bind (moveAll set h) := by
  rw [resizeWith, if_neg h0]
  refine congrArg (Option.bind (h.replacement n)) (funext fun newLh => ?_)
  refine congrArg (Option.bind _) (funext fun newLh => ?_)
  cases swap h newLh with
  | none => rfl
  | some p => rfl

omit [DecidableEq K] in
theorem growCount_two_pow {j : ℕ} (hj : j ≤ 61) (hcount : h.bucketCount = 2 ^ j) :
    h.growCount = 2 ^ (j + 1) := by
  have hlt : 2 ^ (j + 1) < 2 ^ 64 := Nat.pow_lt_pow_right (by omega) (by omega)
  have hpos : h.bucketCount ≠ 0 := by
    rw [hcount]
    exact Nat.ne_of_gt (Nat.two_pow_pos j)
  rw [growCount, if_pos hpos, sizeT, Nat.shiftLeft_eq, hcount, ← pow_add, Nat.mod_eq_of_lt hlt]

/-- **The capacities that are honoured.** For every request of `1` to `2 ^ 62` buckets, the count
that a constructor passes to `Resize` is the least power of two that is large enough exactly if
the request is at most `2 ^ 30`; and for every table of `2 ^ j` buckets with `j ≤ 61`, which `Set`
doubles when it is full, the replacement that `Resize` builds first has `2 ^ (j + 1)` buckets
exactly if `j < 30`. -/
theorem honoured_iff {n j : ℕ} (hn : 1 ≤ n) (hn' : n ≤ 2 ^ 62)
    (hed : h.emptyKey ≠ h.erasedKey) (hj : j ≤ 61) (hcount : h.bucketCount = 2 ^ j) :
    (construct n h.emptyKey h.erasedKey =
        some ((blank h.emptyKey h.erasedKey : LinearHashmap K V).firstResize (nextPowTwo n)) ∧
      (LeastPowTwo n (nextPowTwo n) ↔ n ≤ 2 ^ 30)) ∧
    h.growCount = 2 ^ (j + 1) ∧
    (∀ set, resizeWith set h (2 ^ (j + 1)) =
      (h.replacement (2 ^ (j + 1))).bind (moveAll set h)) ∧
    ∃ t, h.replacement (2 ^ (j + 1)) = some t ∧
      (t.bucketCount = 2 ^ (j + 1) ∧ t.buckets.length = 2 ^ (j + 1) ↔ j < 30) := by
  refine ⟨⟨construct_eq (by omega) hed, leastPowTwo_nextPowTwo_iff hn hn'⟩,
    growCount_two_pow hj hcount, fun set => resizeWith_eq ?_ set _, _,
    construct_eq (Nat.ne_of_gt (Nat.two_pow_pos _)) hed, ?_⟩
  · rw [hcount]
    exact Nat.ne_of_gt (Nat.two_pow_pos j)
  show nextPowTwo (2 ^ (j + 1)) = 2 ^ (j + 1) ∧
    (List.replicate (nextPowTwo (2 ^ (j + 1))) _).length = 2 ^ (j + 1) ↔ j < 30
  rw [List.length_replicate, and_self_iff, nextPowTwo_two_pow_iff (by omega)]
  omega

/-- A table of eight buckets, and a request of a thousand. -/
theorem honoured_iff_eight :
    ∃ h : LinearHashmap ℕ ℕ, construct 8 100 101 = some h ∧ h.growCount = 16 ∧
      LeastPowTwo 1000 1024 ∧ ∃ t, h.replacement 16 = some t ∧ t.bucketCount = 16 := by
  have h := honoured_iff (h := (blank 100 101 : LinearHashmap ℕ ℕ).firstResize 8) (n := 1000)
    (j := 3) (by decide) (by decide) (by decide) (by decide) rfl
  obtain ⟨⟨-, hleast⟩, hgrow, -, t, ht, hcount⟩ := h
  exact ⟨_, rfl, hgrow, hleast.2 (by decide), t, ht, (hcount.2 (by decide)).1⟩

/-- A request of `2 ^ 32` buckets gets one, and one of `2 ^ 31 + 1` gets none. A table of `2 ^ 30`
buckets asks for twice as many, and the replacement is told to allocate `2 ^ 64 - 2 ^ 31`. -/
theorem not_honoured_above :
    ¬ LeastPowTwo (2 ^ 32) (nextPowTwo (2 ^ 32)) ∧ nextPowTwo (2 ^ 32) = 1 ∧
      nextPowTwo (2 ^ 31 + 1) = 0 ∧ nextPowTwo (2 * 2 ^ 30) = 2 ^ 64 - 2 ^ 31 := by
  have hone : nextPowTwo (2 ^ 32) = 1 := by decide
  refine ⟨fun hleast => ?_, hone, by decide, by decide⟩
  have hle := hleast.1.2
  rw [hone] at hle
  exact absurd hle (by decide)

end LinearHashmap

end Naesala
