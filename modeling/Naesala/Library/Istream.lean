import Mathlib.Algebra.Order.Ring.Int
import Mathlib.Data.List.TakeWhile
import Mathlib.Tactic.Positivity
import Mathlib.Tactic.Ring
import Mathlib.Tactic.SplitIfs

/-!
# Formatted input

Extraction from a stream, word by word, character by character and number by number, as the
formatted input functions of C++ do it. Each passes over blanks; a failed extraction lets all later
ones fail, and these leave their variables as they are. A number that does not fit into its type is
stored as the nearest one that does, and is a failure; an unsigned type takes a negative number
modulo its range.

Where the numbers are written in decimal and fit, they are read back (`readInt_decimal`).
-/

namespace Istream

/-! ## Types of integers -/

/-- A type of integers. -/
structure IntType where
  signed : Bool
  bits : ℕ

namespace IntType

def min (ty : IntType) : ℤ := if ty.signed then -2 ^ (ty.bits - 1) else 0

def max (ty : IntType) : ℤ := if ty.signed then 2 ^ (ty.bits - 1) - 1 else 2 ^ ty.bits - 1

/-- The number is one of the type. -/
def Contains (ty : IntType) (n : ℤ) : Prop := ty.min ≤ n ∧ n ≤ ty.max

instance (ty : IntType) (n : ℤ) : Decidable (ty.Contains n) :=
  inferInstanceAs (Decidable (_ ∧ _))

/-- A number of the type. -/
abbrev Value (ty : IntType) := { n : ℤ // ty.Contains n }

theorem min_le_zero (ty : IntType) : ty.min ≤ 0 := by
  unfold min
  split_ifs
  · exact neg_nonpos.2 (by positivity)
  · exact le_rfl

theorem zero_le_max (ty : IntType) : 0 ≤ ty.max := by
  have hone : ∀ k : ℕ, (1 : ℤ) ≤ 2 ^ k := fun k => one_le_pow₀ (by decide)
  unfold max
  split_ifs
  · exact sub_nonneg.2 (hone _)
  · exact sub_nonneg.2 (hone _)

/-- What an unsigned type contains. -/
theorem contains_unsigned {k : ℕ} {n : ℤ} :
    (⟨false, k⟩ : IntType).Contains n ↔ 0 ≤ n ∧ n < 2 ^ k :=
  and_congr_right fun _ => Int.le_sub_one_iff

/-- What a signed type contains. -/
theorem contains_signed {k : ℕ} {n : ℤ} :
    (⟨true, k⟩ : IntType).Contains n ↔ -2 ^ (k - 1) ≤ n ∧ n < 2 ^ (k - 1) :=
  and_congr_right fun _ => Int.le_sub_one_iff

def zero (ty : IntType) : ty.Value := ⟨0, ty.min_le_zero, ty.zero_le_max⟩

def lowest (ty : IntType) : ty.Value := ⟨ty.min, le_rfl, ty.min_le_zero.trans ty.zero_le_max⟩

def highest (ty : IntType) : ty.Value := ⟨ty.max, ty.min_le_zero.trans ty.zero_le_max, le_rfl⟩

/-- A sign and an absolute value. -/
def ofSign (negative : Bool) (m : ℕ) : ℤ := if negative then -m else m

/-- What is stored for a number, and whether that is a failure. -/
def convert (ty : IntType) (negative : Bool) (m : ℕ) : ty.Value × Bool :=
  if h : ty.Contains (ofSign negative m) then (⟨_, h⟩, false)
  else if negative ∧ ty.signed then (ty.lowest, true)
  else if h : negative ∧ (m : ℤ) ≤ ty.max ∧ ty.Contains (2 ^ ty.bits - m) then
    (⟨_, h.2.2⟩, false)
  else (ty.highest, true)

theorem convert_of_contains {ty : IntType} {negative : Bool} {m : ℕ}
    (h : ty.Contains (ofSign negative m)) : ty.convert negative m = (⟨_, h⟩, false) :=
  dif_pos h

end IntType

end Istream

/-- A stream: what has not been read, and whether an extraction has failed. -/
structure Istream where
  rest : List Char
  fail : Bool

namespace Istream

/-! ## Extraction -/

section

variable (space : Char → Bool)

/-- Extract a word. -/
def readWord (s : Istream) (old : List Char) : Istream × List Char :=
  if s.fail then (s, old)
  else
    match s.rest.dropWhile space with
    | [] => (⟨[], true⟩, old)
    | c :: text =>
      (⟨(c :: text).dropWhile fun c => !space c, false⟩, (c :: text).takeWhile fun c => !space c)

/-- Extract a character. -/
def readChar (s : Istream) (old : Char) : Istream × Char :=
  if s.fail then (s, old)
  else
    match s.rest.dropWhile space with
    | [] => (⟨[], true⟩, old)
    | c :: text => (⟨text, false⟩, c)

/-- The sign of a number, and what comes after it. -/
def splitSign : List Char → Bool × List Char
  | [] => (false, [])
  | c :: text =>
    if c = '-' then (true, text) else if c = '+' then (false, text) else (false, c :: text)

/-- Extract a number. -/
def readInt (ty : IntType) (s : Istream) (old : ty.Value) : Istream × ty.Value :=
  if s.fail then (s, old)
  else
    match s.rest.dropWhile space with
    | [] => (⟨[], true⟩, old)
    | c :: text =>
      let signed := splitSign (c :: text)
      let digits := signed.2.takeWhile Char.isDigit
      let rest := signed.2.dropWhile Char.isDigit
      if digits = [] then (⟨rest, true⟩, ty.zero)
      else
        let number := ty.convert signed.1 (Nat.ofDigitChars 10 digits 0)
        (⟨rest, number.2⟩, number.1)

end

/-- A number in decimal. -/
def decimal (n : ℤ) : List Char :=
  if n < 0 then '-' :: Nat.toDigits 10 n.natAbs else Nat.toDigits 10 n.natAbs

/-! ## Reading back -/

variable {space : Char → Bool} {ty : IntType} {w rest : List Char} {c : Char}

/-- The property that ends a list, of what comes after it. -/
theorem head?_cons_of {p : Char → Bool} (hc : p c = false) :
    ∀ d, (c :: rest).head? = some d → p d = false := by
  intro d hd
  rw [← Option.some.inj hd]
  exact hc

theorem takeWhile_append_cons {p : Char → Bool} (hw : ∀ c ∈ w, p c = true)
    (hrest : ∀ c, rest.head? = some c → p c = false) :
    (w ++ rest).takeWhile p = w ∧ (w ++ rest).dropWhile p = rest := by
  rw [List.takeWhile_append_of_pos hw, List.dropWhile_append_of_pos hw]
  cases rest with
  | nil => exact ⟨List.append_nil w, rfl⟩
  | cons c rest =>
    have hc : ¬ p c = true := by simp [hrest c rfl]
    exact ⟨by rw [List.takeWhile_cons_of_neg hc, List.append_nil], List.dropWhile_cons_of_neg hc⟩

/-- Digits and the minus sign are no blanks. -/
structure Plain (space : Char → Bool) : Prop where
  digit : ∀ c, c.isDigit = true → space c = false
  minus : space '-' = false

theorem readWord_blank (hc : space c = true) (text old : List Char) :
    readWord space ⟨c :: text, false⟩ old = readWord space ⟨text, false⟩ old := by
  simp only [readWord, List.dropWhile_cons_of_pos hc, Bool.false_eq_true, if_false]

theorem readChar_blank (hc : space c = true) (text : List Char) (old : Char) :
    readChar space ⟨c :: text, false⟩ old = readChar space ⟨text, false⟩ old := by
  simp only [readChar, List.dropWhile_cons_of_pos hc, Bool.false_eq_true, if_false]

theorem readInt_blank (hc : space c = true) (text : List Char) (old : ty.Value) :
    readInt space ty ⟨c :: text, false⟩ old = readInt space ty ⟨text, false⟩ old := by
  simp only [readInt, List.dropWhile_cons_of_pos hc, Bool.false_eq_true, if_false]

/-- A word goes up to the next blank. -/
theorem readWord_cons (hc : space c = false) (text old : List Char) :
    readWord space ⟨c :: text, false⟩ old =
      (⟨text.dropWhile fun c => !space c, false⟩, c :: text.takeWhile fun c => !space c) := by
  have hneg : ¬ space c = true := by simp [hc]
  simp [readWord, List.dropWhile_cons_of_neg hneg, hc]

theorem readChar_cons (hc : space c = false) (text : List Char) (old : Char) :
    readChar space ⟨c :: text, false⟩ old = (⟨text, false⟩, c) := by
  have hneg : ¬ space c = true := by simp [hc]
  simp [readChar, List.dropWhile_cons_of_neg hneg]

theorem exists_digits (m : ℕ) : ∃ d ds, Nat.toDigits 10 m = d :: ds ∧
    ∀ c ∈ d :: ds, c.isDigit = true := by
  cases h : Nat.toDigits 10 m with
  | nil => exact absurd h Nat.toDigits_ne_nil
  | cons d ds =>
    refine ⟨d, ds, rfl, fun c hc => ?_⟩
    rw [← h] at hc
    exact Nat.isDigit_of_mem_toDigits (by decide) (by decide) hc

/-- A sign and digits, and the number that they are. -/
theorem readInt_of_split {text digits : List Char} {negative : Bool} (n : ty.Value)
    (hc : space c = false) (hsplit : splitSign (c :: text) = (negative, digits ++ rest))
    (hne : digits ≠ []) (hdigits : ∀ c ∈ digits, c.isDigit = true)
    (hrest : ∀ c, rest.head? = some c → c.isDigit = false)
    (hvalue : IntType.ofSign negative (Nat.ofDigitChars 10 digits 0) = n) (old : ty.Value) :
    readInt space ty ⟨c :: text, false⟩ old = (⟨rest, false⟩, n) := by
  obtain ⟨htake, hdrop⟩ := takeWhile_append_cons hdigits hrest
  have hneg : ¬ space c = true := by simp [hc]
  have hin : ty.Contains (IntType.ofSign negative (Nat.ofDigitChars 10 digits 0)) := hvalue ▸ n.2
  simp only [readInt, List.dropWhile_cons_of_neg hneg, Bool.false_eq_true, if_false, hsplit, htake,
    hdrop, hne, IntType.convert_of_contains hin]
  exact congrArg (Prod.mk _) (Subtype.ext hvalue)

/-- **A number that fits is read back**, up to what is not a digit. -/
theorem readInt_decimal (hspace : Plain space) (n : ty.Value)
    (hrest : ∀ c, rest.head? = some c → c.isDigit = false) (old : ty.Value) :
    readInt space ty ⟨decimal n ++ rest, false⟩ old = (⟨rest, false⟩, n) := by
  obtain ⟨d, ds, hdigits, hall⟩ := exists_digits n.1.natAbs
  have hd := hall d List.mem_cons_self
  have hvalue : Nat.ofDigitChars 10 (d :: ds) 0 = n.1.natAbs := by
    rw [← hdigits]
    exact Nat.ofDigitChars_ten_toDigits
  rw [decimal, hdigits]
  split_ifs with hneg
  · refine readInt_of_split n hspace.minus rfl (List.cons_ne_nil d ds) hall hrest ?_ old
    rw [hvalue, IntType.ofSign, if_pos rfl]
    omega
  · have hsplit : splitSign (d :: (ds ++ rest)) = (false, d :: ds ++ rest) := by
      have hminus : d ≠ '-' := fun heq => by rw [heq] at hd; cases hd
      have hplus : d ≠ '+' := fun heq => by rw [heq] at hd; cases hd
      rw [splitSign, if_neg hminus, if_neg hplus]
      rfl
    refine readInt_of_split n (hspace.digit d hd) hsplit (List.cons_ne_nil d ds) hall hrest ?_ old
    rw [hvalue, IntType.ofSign, if_neg Bool.false_ne_true]
    omega

end Istream
