import Naesala.Configure.ConfLoad

/-!
# The files that `ConfParser::load` accepts

`Accepted` is the grammar of a line: blank, a comment, a header with a closing bracket, or an item
with one `=`. The bad lines of `load` are those that the grammar does not have.

**Theorem (`load_accepts`).** `load` succeeds on the files whose lines are all in the grammar, and
then it has stored what they assign, the last assignment to a key under an option.
-/

namespace Naesala

namespace ConfParser

variable {line l r o k v : Text} {content : Text} {path : String}

/-! ## The grammar -/

/-- A line that is not blank and not a comment is a header or an item. -/
def Accepted (line : Text) : Prop :=
  trim line ≠ [] → (trim line).head? ≠ some '#' →
    (trim line).head? = some '[' ∧ ']' ∈ trim line ∨
    (trim line).head? ≠ some '[' ∧ (trim line).count '=' = 1

/-- A character that occurs once has what comes before it and what comes after. -/
theorem count_eq_one_iff {c : Char} :
    line.count c = 1 ↔ ∃ l r, line = l ++ c :: r ∧ c ∉ l ∧ c ∉ r := by
  constructor
  · intro hcount
    have hmem : c ∈ line := List.count_pos_iff.1 (by omega)
    obtain ⟨l, r, rfl, hl⟩ := List.eq_append_cons_of_mem hmem
    rw [List.count_append, List.count_eq_zero_of_not_mem hl, List.count_cons_self] at hcount
    exact ⟨l, r, rfl, hl, List.count_eq_zero.1 (by omega)⟩
  · intro h
    obtain ⟨l, r, rfl, hl, hr⟩ := h
    rw [List.count_append, List.count_cons_self, List.count_eq_zero_of_not_mem hl,
      List.count_eq_zero_of_not_mem hr]

theorem exists_item_iff : (∃ k v, IsItem line k v) ↔
    (trim line).head? ≠ some '#' ∧ (trim line).head? ≠ some '[' ∧ (trim line).count '=' = 1 := by
  rw [count_eq_one_iff]
  constructor
  · intro h
    obtain ⟨k, v, l, r, hline, hl, hr, hhash, hopen, -⟩ := h
    exact ⟨hhash, hopen, l, r, hline, hl, hr⟩
  · intro h
    obtain ⟨hhash, hopen, l, r, hline, hl, hr⟩ := h
    exact ⟨trim l, trim r, l, r, hline, hl, hr, hhash, hopen, rfl, rfl⟩

/-- **The grammar has the lines at which `load` does not throw.** -/
theorem accepted_iff : Accepted line ↔ ¬ IsBad line := by
  unfold Accepted IsBad IsSkipped
  rw [← exists_header_iff]
  constructor
  · intro h hbad
    obtain ⟨hskip, hheader, hitem⟩ := hbad
    obtain ⟨hne, hhash⟩ := not_or.1 hskip
    rcases h hne hhash with ⟨o, ho⟩ | ⟨hopen, hcount⟩
    · exact hheader o ho
    · obtain ⟨k, v, hkv⟩ := exists_item_iff.2 ⟨hhash, hopen, hcount⟩
      exact hitem k v hkv
  · intro h hne hhash
    by_contra hneither
    obtain ⟨hheader, hitem⟩ := not_or.1 hneither
    refine h ⟨not_or.2 ⟨hne, hhash⟩, fun o ho => hheader ⟨o, ho⟩, fun k v hkv => hitem ?_⟩
    obtain ⟨-, hopen, hcount⟩ := exists_item_iff.1 ⟨k, v, hkv⟩
    exact ⟨hopen, hcount⟩

/-! ## What is stored -/

theorem entry_empty (o k : Text) : entry ∅ o k = none := by
  rw [entry, Finmap.lookup_empty]
  rfl

/-- On top of nothing, an entry is there if and only if a line assigns it. -/
theorem Loaded.entry_iff {ls : List Text} {st : Loading} (h : Loaded ∅ ls st) (o k v : Text) :
    entry st.conf o k = some v ↔ AssignsLast ls o k v := by
  constructor
  · intro hentry
    rcases h.entry_cases o k with ⟨v', hlast, hv'⟩ | ⟨-, hnone⟩
    · rw [hentry] at hv'
      rwa [Option.some.inj hv']
    · rw [hentry, entry_empty] at hnone
      cases hnone
  · exact h.last o k v

theorem load_of_loadLines {st : Loading} (h : loadLines path (lines content) ⟨[], ∅⟩ = (st, none)) :
    (construct path).load (some content) = (⟨true, path, st.conf⟩, none) := by
  simp only [load, construct, h]

theorem exists_loadLines {s : ConfParser} (h : (construct path).load (some content) = (s, none)) :
    s.loaded = true ∧ ∃ o, loadLines path (lines content) ⟨[], ∅⟩ = (⟨o, s.conf⟩, none) := by
  cases hend : loadLines path (lines content) ⟨[], ∅⟩ with
  | mk st e =>
    cases e with
    | none =>
      rw [load_of_loadLines hend] at h
      cases h
      exact ⟨rfl, st.curOption, rfl⟩
    | some e =>
      simp only [load, construct, hend] at h
      cases h

/-- What `load` leaves on a fresh parser, if it succeeds. -/
theorem loaded_of_load {s : ConfParser} (h : (construct path).load (some content) = (s, none)) :
    s.loaded = true ∧ ∃ o, Loaded ∅ (lines content) ⟨o, s.conf⟩ := by
  obtain ⟨hs, o, hend⟩ := exists_loadLines h
  rcases (Loaded.init ∅).loadLines path (lines content) with
    ⟨st, hst, hloaded⟩ | ⟨st, e, before, bad, after, hst, -⟩
  · rw [hend] at hst
    cases hst
    exact ⟨hs, o, hloaded⟩
  · rw [hend] at hst
    cases hst

/-- **`load` accepts the files of the grammar, and the last assignment wins.** On a fresh parser,
`load` succeeds if and only if all lines of the file are accepted; then the parser is loaded, an
entry is there if and only if an item line of the file names its key under its option, and its value
is that of the last such line. -/
theorem load_accepts (path : String) (content : Text) :
    (((construct path).load (some content)).2 = none ↔ ∀ line ∈ lines content, Accepted line) ∧
      ∀ s', (construct path).load (some content) = (s', none) → s'.loaded = true ∧
        ∀ o k, ((entry s'.conf o k).isSome ↔ ∃ v, Assigns (lines content) o k v) ∧
          ∀ v, entry s'.conf o k = some v ↔ AssignsLast (lines content) o k v := by
  refine ⟨⟨fun hnone line hline => ?_, fun hall => ?_⟩, fun s' hs' => ?_⟩
  · obtain ⟨-, o, hloaded⟩ := loaded_of_load (Prod.ext rfl hnone)
    exact accepted_iff.2 (hloaded.good line hline)
  · rcases (Loaded.init ∅).loadLines path (lines content) with
      ⟨st, hend, -⟩ | ⟨st, e, before, bad, after, -, hlines, hbad, -⟩
    · rw [load_of_loadLines hend]
    · -- `load` would have thrown at a bad line, and there is none
      have hin : bad ∈ lines content := by rw [hlines]; simp
      exact absurd hbad (accepted_iff.1 (hall bad hin))
  · obtain ⟨hl, o', hloaded⟩ := loaded_of_load hs'
    refine ⟨hl, fun o k => ⟨?_, hloaded.entry_iff o k⟩⟩
    rw [Option.isSome_iff_exists]
    constructor
    · intro h
      obtain ⟨v, hv⟩ := h
      exact ⟨v, ((hloaded.entry_iff o k v).1 hv).assigns⟩
    · intro h
      obtain ⟨v, hv⟩ := h
      obtain ⟨v', hlast⟩ := hv.exists_last
      exact ⟨v', (hloaded.entry_iff o k v').2 hlast⟩

/-- Two lines for the key `a`, and the second is the one that stays. -/
theorem load_accepts_twice :
    AssignsLast (lines ['a', '=', '1', '\n', ' ', 'a', '=', '2']) [] ['a'] ['2'] := by
  obtain ⟨-, hentry⟩ := (load_accepts "conf" ['a', '=', '1', '\n', ' ', 'a', '=', '2']).2 _ rfl
  exact ((hentry [] ['a']).2 ['2']).1 rfl

end ConfParser

end Naesala
