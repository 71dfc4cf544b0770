import Naesala.Configure.ConfParser

/-!
# What `ConfParser::load` stores

Four kinds of lines, told apart after trimming: lines that are passed over, headers, items, and
bad lines, at which `load` throws. `UnderOption` and `AssignsLast` read a list of lines without
running it: which header is the nearest one before a line, and which item line is the last one to
name a key under an option. The loop is followed line after line, from the front; a line added at
the end can only be the new last one.

**Theorem (`load_of_error`).** When `load` throws at a line, the lines before it have been applied:
an entry that they assign has the value of the last of them, and every other entry is as before.
-/

namespace Naesala

namespace ConfParser

variable {line l r o o' k k' v v' : Text} {ls a b : List Text} {path : String}
variable {conf : Conf} {st st' : Loading}

/-! ## Entries -/

/-- The value stored for an option and a key. -/
def entry (conf : Conf) (option key : Text) : Option Text :=
  (conf.lookup option).bind fun item => item.lookup key

theorem entry_assign_self (conf : Conf) (o k v : Text) :
    entry (assign conf o k v) o k = some v := by
  rw [entry, assign, Finmap.lookup_insert, Option.bind_some, Finmap.lookup_insert]

theorem entry_assign_of_ne (conf : Conf) (v : Text) (hne : o' ≠ o ∨ k' ≠ k) :
    entry (assign conf o k v) o' k' = entry conf o' k' := by
  by_cases ho : o' = o
  · subst ho
    have hk : k' ≠ k := hne.resolve_left fun hn => hn rfl
    rw [entry, assign, Finmap.lookup_insert, Option.bind_some, Finmap.lookup_insert_of_ne _ hk,
      entry]
    cases conf.lookup o' with
    | none => rfl
    | some item => rfl
  · rw [entry, assign, Finmap.lookup_insert_of_ne _ ho, entry]

theorem toOption_get {Value : Type} (lexicalCast : Text → Option Value) (s : ConfParser)
    (o k : Text) : (s.get lexicalCast o k).toOption = (entry s.conf o k).bind lexicalCast := by
  unfold get entry
  cases s.conf.lookup o with
  | none => rfl
  | some item =>
    simp only [Option.bind_some]
    cases item.lookup k with
    | none => rfl
    | some var =>
      simp only [Option.bind_some]
      cases lexicalCast var with
      | none => rfl
      | some value => rfl

/-! ## Lines -/

/-- A line that is passed over: blank, or a comment. -/
def IsSkipped (line : Text) : Prop := trim line = [] ∨ (trim line).head? = some '#'

/-- A header line, of option `o`. -/
def IsHeader (line o : Text) : Prop := ']' ∉ o ∧ ∃ rest, trim line = '[' :: (o ++ ']' :: rest)

/-- An item line, of key `k` and value `v`. -/
def IsItem (line k v : Text) : Prop :=
  ∃ l r, trim line = l ++ '=' :: r ∧ '=' ∉ l ∧ '=' ∉ r ∧ (trim line).head? ≠ some '#' ∧
    (trim line).head? ≠ some '[' ∧ trim l = k ∧ trim r = v

/-- Any other line. -/
def IsBad (line : Text) : Prop :=
  ¬ IsSkipped line ∧ (∀ o, ¬ IsHeader line o) ∧ ∀ k v, ¬ IsItem line k v

theorem splitOn_eq_singleton_iff : line.splitOn '=' = [r] ↔ line = r ∧ '=' ∉ r := by
  constructor
  · intro hsplit
    by_cases hmem : '=' ∈ line
    · obtain ⟨l, rest, rfl, hl⟩ := List.eq_append_cons_of_mem hmem
      rw [List.splitOn_append_cons_self_of_not_mem hl] at hsplit
      exact absurd (List.cons.inj hsplit).2 (List.splitOn_ne_nil _ _)
    · rw [List.splitOn_eq_singleton hmem] at hsplit
      obtain rfl := (List.cons.inj hsplit).1
      exact ⟨rfl, hmem⟩
  · intro h
    obtain ⟨rfl, hmem⟩ := h
    exact List.splitOn_eq_singleton hmem

/-- A line splits in two at its only `=`. -/
theorem splitOn_eq_pair_iff :
    line.splitOn '=' = [l, r] ↔ line = l ++ '=' :: r ∧ '=' ∉ l ∧ '=' ∉ r := by
  constructor
  · intro hsplit
    by_cases hmem : '=' ∈ line
    · obtain ⟨l', rest, rfl, hl⟩ := List.eq_append_cons_of_mem hmem
      rw [List.splitOn_append_cons_self_of_not_mem hl] at hsplit
      obtain ⟨rfl, hrest⟩ := List.cons.inj hsplit
      obtain ⟨rfl, hr⟩ := splitOn_eq_singleton_iff.1 hrest
      exact ⟨rfl, hl, hr⟩
    · rw [List.splitOn_eq_singleton hmem] at hsplit
      cases (List.cons.inj hsplit).2
  · intro h
    obtain ⟨rfl, hl, hr⟩ := h
    rw [List.splitOn_append_cons_self_of_not_mem hl, List.splitOn_eq_singleton hr]

theorem loadLine_of_skipped (h : IsSkipped line) : loadLine path st line = .ok st := by
  unfold loadLine
  rcases h with hnil | hhash
  · simp only [hnil, if_true]
  · have hne : trim line ≠ [] := by
      intro hnil
      rw [hnil] at hhash
      cases hhash
    simp only [hne, hhash, if_true, if_false]

theorem IsHeader.option_eq (h : IsHeader line o) :
    ((trim line).drop 1).take ((trim line).idxOf ']' - 1) = o := by
  obtain ⟨ho, rest, hline⟩ := h
  have hnot : ']' ∉ '[' :: o := by
    rw [List.mem_cons, not_or]
    exact ⟨by decide, ho⟩
  have hidx : (trim line).idxOf ']' = o.length + 1 := by
    rw [hline, ← List.cons_append, List.idxOf_append_of_notMem hnot, List.idxOf_cons_self]
    rfl
  rw [hidx, hline]
  simp

theorem IsHeader.unique (h : IsHeader line o) (h' : IsHeader line o') : o = o' :=
  h.option_eq.symm.trans h'.option_eq

theorem loadLine_of_header (h : IsHeader line o) :
    loadLine path st line = .ok { st with curOption := o } := by
  have hoption := h.option_eq
  obtain ⟨-, rest, hline⟩ := h
  have hmem : ']' ∈ trim line := by rw [hline]; simp
  have hne : trim line ≠ [] := by rw [hline]; exact List.cons_ne_nil _ _
  have hhead : (trim line).head? = some '[' := by rw [hline]; rfl
  have hhash : ¬ some '[' = some '#' := by decide
  simp only [loadLine, hne, hhash, hhead, hmem, not_true_eq_false, if_true, if_false, hoption]

theorem loadLine_of_item (h : IsItem line k v) :
    loadLine path st line = .ok { st with conf := assign st.conf st.curOption k v } := by
  obtain ⟨l, r, hline, hl, hr, hhash, hopen, rfl, rfl⟩ := h
  have hne : trim line ≠ [] := by rw [hline]; simp
  have hsplit : (trim line).splitOn '=' = [l, r] := splitOn_eq_pair_iff.2 ⟨hline, hl, hr⟩
  simp only [loadLine, hne, hhash, hopen, if_false, hsplit]

theorem IsHeader.head (h : IsHeader line o) : (trim line).head? = some '[' := by
  obtain ⟨-, rest, hline⟩ := h
  rw [hline]
  rfl

theorem exists_header_iff :
    (∃ o, IsHeader line o) ↔ (trim line).head? = some '[' ∧ ']' ∈ trim line := by
  constructor
  · intro h
    obtain ⟨o, ho⟩ := h
    refine ⟨ho.head, ?_⟩
    obtain ⟨-, rest, hline⟩ := ho
    rw [hline]
    simp
  · intro h
    obtain ⟨hopen, hmem⟩ := h
    obtain ⟨l, rest, hline, hl⟩ := List.eq_append_cons_of_mem hmem
    cases l with
    | nil =>
      rw [hline] at hopen
      exact absurd (Option.some.inj hopen) (by decide)
    | cons c o =>
      rw [hline] at hopen
      obtain rfl : c = '[' := Option.some.inj hopen
      exact ⟨o, fun ho => hl (List.mem_cons_of_mem _ ho), rest, hline⟩

theorem IsBad.loadLine (h : IsBad line) : ∃ e, loadLine path st line = .error e := by
  obtain ⟨hskip, hheader, hitem⟩ := h
  obtain ⟨hne, hhash⟩ := not_or.1 hskip
  by_cases hopen : (trim line).head? = some '['
  · have hmem : ']' ∉ trim line := by
      intro hin
      obtain ⟨o, ho⟩ := exists_header_iff.2 ⟨hopen, hin⟩
      exact hheader o ho
    have hhash' : ¬ some '[' = some '#' := by decide
    simp only [ConfParser.loadLine, hne, hopen, hhash', hmem, not_false_eq_true, if_true, if_false]
    exact ⟨_, rfl⟩
  · simp only [ConfParser.loadLine, hne, hhash, hopen, if_false]
    split
    · next l r hsplit =>
      obtain ⟨hline, hl, hr⟩ := splitOn_eq_pair_iff.1 hsplit
      exact absurd ⟨l, r, hline, hl, hr, hhash, hopen, rfl, rfl⟩ (hitem (trim l) (trim r))
    · exact ⟨_, rfl⟩

/-- The kinds of lines, and what `load` does with each. -/
theorem loadLine_cases (path : String) (st : Loading) (line : Text) :
    (IsBad line ∧ ∃ e, loadLine path st line = .error e) ∨
    ¬ IsBad line ∧ (IsSkipped line ∧ loadLine path st line = .ok st ∨
      (∃ o, IsHeader line o ∧ loadLine path st line = .ok { st with curOption := o }) ∨
      ∃ k v, IsItem line k v ∧
        loadLine path st line = .ok { st with conf := assign st.conf st.curOption k v }) := by
  by_cases hbad : IsBad line
  · exact Or.inl ⟨hbad, hbad.loadLine⟩
  · refine Or.inr ⟨hbad, ?_⟩
    by_cases hskip : IsSkipped line
    · exact Or.inl ⟨hskip, loadLine_of_skipped hskip⟩
    by_cases hheader : ∃ o, IsHeader line o
    · obtain ⟨o, ho⟩ := hheader
      exact Or.inr (Or.inl ⟨o, ho, loadLine_of_header ho⟩)
    by_cases hitem : ∃ k v, IsItem line k v
    · obtain ⟨k, v, hkv⟩ := hitem
      exact Or.inr (Or.inr ⟨k, v, hkv, loadLine_of_item hkv⟩)
    · exact absurd ⟨hskip, fun o ho => hheader ⟨o, ho⟩, fun k v hkv => hitem ⟨k, v, hkv⟩⟩ hbad

theorem IsSkipped.not_header (h : IsSkipped line) (o : Text) : ¬ IsHeader line o := by
  intro hheader
  have hhead := hheader.head
  rcases h with hnil | hhash
  · rw [hnil] at hhead
    cases hhead
  · rw [hhash] at hhead
    exact absurd (Option.some.inj hhead) (by decide)

theorem IsItem.not_header (h : IsItem line k v) (o : Text) : ¬ IsHeader line o := by
  obtain ⟨-, -, -, -, -, -, hopen, -, -⟩ := h
  exact fun hheader => hopen hheader.head

theorem IsHeader.not_item (h : IsHeader line o) (k v : Text) : ¬ IsItem line k v :=
  fun hitem => hitem.not_header o h

theorem IsSkipped.not_item (h : IsSkipped line) (k v : Text) : ¬ IsItem line k v := by
  intro hitem
  obtain ⟨l, r, hline, -, -, hhash, -, -, -⟩ := hitem
  rcases h with hnil | hhash'
  · rw [hnil] at hline
    cases l with
    | nil => cases hline
    | cons c l => cases hline
  · exact hhash hhash'

theorem IsItem.unique (h : IsItem line k v) (h' : IsItem line k' v') : k = k' ∧ v = v' := by
  obtain ⟨l, r, hline, hl, hr, -, -, rfl, rfl⟩ := h
  obtain ⟨l', r', hline', hl', hr', -, -, rfl, rfl⟩ := h'
  have hsplit := splitOn_eq_pair_iff.2 ⟨hline, hl, hr⟩
  rw [splitOn_eq_pair_iff.2 ⟨hline', hl', hr'⟩] at hsplit
  obtain ⟨rfl, hrest⟩ := List.cons.inj hsplit
  obtain ⟨rfl, -⟩ := List.cons.inj hrest
  exact ⟨rfl, rfl⟩

/-! ## What a list of lines says -/

/-- `o` is the option of the last header in the lines, and empty if there is none. -/
def UnderOption (ls : List Text) (o : Text) : Prop :=
  (o = [] ∧ ∀ l ∈ ls, ∀ o', ¬ IsHeader l o') ∨
  ∃ a h b, ls = a ++ h :: b ∧ IsHeader h o ∧ ∀ l ∈ b, ∀ o', ¬ IsHeader l o'

/-- An item line of the list assigns `v` to the key `k` under the option `o`. -/
def Assigns (ls : List Text) (o k v : Text) : Prop :=
  ∃ a l b, ls = a ++ l :: b ∧ UnderOption a o ∧ IsItem l k v

/-- The last item line that names the key `k` under the option `o` assigns `v`. -/
def AssignsLast (ls : List Text) (o k v : Text) : Prop :=
  ∃ a l b, ls = a ++ l :: b ∧ UnderOption a o ∧ IsItem l k v ∧
    ∀ a' l' b' v', b = a' ++ l' :: b' → UnderOption (a ++ l :: a') o → ¬ IsItem l' k v'

/-- A line of a list with one more line at the end is that one, or one of the others. -/
theorem snoc_eq_append_cons {α : Type} {xs as bs : List α} {x y : α}
    (h : xs ++ [x] = as ++ y :: bs) :
    (bs = [] ∧ xs = as ∧ x = y) ∨ ∃ bs', bs = bs' ++ [x] ∧ xs = as ++ y :: bs' := by
  rcases List.eq_nil_or_concat bs with rfl | ⟨bs', z, rfl⟩
  · obtain ⟨rfl, hxy⟩ := List.append_inj' h rfl
    exact Or.inl ⟨rfl, rfl, (List.cons.inj hxy).1⟩
  · rw [List.concat_eq_append, ← List.cons_append, ← List.append_assoc] at h
    obtain ⟨rfl, hxz⟩ := List.append_inj' h rfl
    obtain rfl := (List.cons.inj hxz).1
    exact Or.inr ⟨bs', by rw [List.concat_eq_append], rfl⟩

theorem underOption_snoc_header (h : IsHeader line o) : UnderOption (ls ++ [line]) o :=
  Or.inr ⟨ls, line, [], rfl, h, fun _ hl => absurd hl List.not_mem_nil⟩

theorem UnderOption.snoc (h : UnderOption ls o) (hline : ∀ o', ¬ IsHeader line o') :
    UnderOption (ls ++ [line]) o := by
  have hnone : ∀ b : List Text, (∀ l ∈ b, ∀ o', ¬ IsHeader l o') →
      ∀ l ∈ b ++ [line], ∀ o', ¬ IsHeader l o' := by
    intro b hb l hl
    rcases List.mem_append.1 hl with hl | hl
    · exact hb l hl
    · rw [List.mem_singleton.1 hl]
      exact hline
  rcases h with ⟨rfl, hls⟩ | ⟨a, h, b, rfl, hh, hb⟩
  · exact Or.inl ⟨rfl, hnone _ hls⟩
  · exact Or.inr ⟨a, h, b ++ [line], by simp, hh, hnone _ hb⟩

theorem UnderOption.unique (h : UnderOption ls o) (h' : UnderOption ls o') : o = o' := by
  rcases h with ⟨rfl, hls⟩ | ⟨a, x, b, rfl, hx, hb⟩
  · rcases h' with ⟨rfl, -⟩ | ⟨a, x, b, rfl, hx, -⟩
    · rfl
    · exact absurd hx (hls x (by simp) _)
  · rcases h' with ⟨-, hls⟩ | ⟨a', x', b', heq, hx', hb'⟩
    · exact absurd hx (hls x (by simp) _)
    · rcases List.append_eq_append_iff.1 heq with ⟨c, hc, hrest⟩ | ⟨c, hc, hrest⟩
      · cases c with
        | nil =>
          obtain rfl := (List.cons.inj hrest).1
          exact hx.unique hx'
        | cons d c =>
          obtain ⟨-, rfl⟩ := List.cons.inj hrest
          exact absurd hx' (hb x' (by simp) _)
      · cases c with
        | nil =>
          obtain rfl := (List.cons.inj hrest).1
          exact hx.unique hx'
        | cons d c =>
          obtain ⟨-, rfl⟩ := List.cons.inj hrest
          exact absurd hx (hb' x (by simp) _)

theorem Assigns.snoc (h : Assigns ls o k v) (line : Text) : Assigns (ls ++ [line]) o k v := by
  obtain ⟨a, l, b, rfl, ho, hl⟩ := h
  exact ⟨a, l, b ++ [line], by simp, ho, hl⟩

theorem assignsLast_snoc_self (ho : UnderOption ls o) (h : IsItem line k v) :
    AssignsLast (ls ++ [line]) o k v := by
  refine ⟨ls, line, [], rfl, ho, h, fun a' l' b' v' hnil => ?_⟩
  cases a' with
  | nil => cases hnil
  | cons c a' => cases hnil

theorem AssignsLast.assigns (h : AssignsLast ls o k v) : Assigns ls o k v := by
  obtain ⟨a, l, b, hls, ho, hl, -⟩ := h
  exact ⟨a, l, b, hls, ho, hl⟩

/-- A line that does not name the key under the option leaves the last assignment. -/
theorem AssignsLast.snoc (h : AssignsLast ls o k v)
    (hline : ∀ v', UnderOption ls o → ¬ IsItem line k v') : AssignsLast (ls ++ [line]) o k v := by
  obtain ⟨a, l, b, rfl, ho, hl, hlater⟩ := h
  refine ⟨a, l, b ++ [line], by simp, ho, hl, fun a' l' b' v' hb hunder => ?_⟩
  rcases snoc_eq_append_cons hb with ⟨-, rfl, rfl⟩ | ⟨b'', -, hb''⟩
  · exact hline v' hunder
  · exact hlater a' l' b'' v' hb'' hunder

/-- The last assignment of a list with one more line is in that line, or it is the last one of the
list and that line does not come after it. -/
theorem AssignsLast.of_snoc (h : AssignsLast (ls ++ [line]) o k v) :
    UnderOption ls o ∧ IsItem line k v ∨
    AssignsLast ls o k v ∧ ∀ v', UnderOption ls o → ¬ IsItem line k v' := by
  obtain ⟨a, l, b, hls, ho, hl, hlater⟩ := h
  rcases snoc_eq_append_cons hls with ⟨-, rfl, rfl⟩ | ⟨b', rfl, rfl⟩
  · exact Or.inl ⟨ho, hl⟩
  · refine Or.inr ⟨⟨a, l, b', rfl, ho, hl, fun a' l' b'' v' hb' hunder => ?_⟩, fun v' hunder => ?_⟩
    · exact hlater a' l' (b'' ++ [line]) v' (by rw [hb']; simp) hunder
    · exact hlater b' line [] v' rfl hunder

/-- What is assigned at all is assigned for the last time by some line. -/
theorem Assigns.exists_last (h : Assigns ls o k v) : ∃ v', AssignsLast ls o k v' := by
  induction ls using List.reverseRecOn generalizing v with
  | nil =>
    obtain ⟨a, l, b, hls, -, -⟩ := h
    exact absurd hls (by simp)
  | append_singleton ls line ih =>
    by_cases hline : UnderOption ls o ∧ ∃ v', IsItem line k v'
    · obtain ⟨ho, v', hv'⟩ := hline
      exact ⟨v', assignsLast_snoc_self ho hv'⟩
    · obtain ⟨a, l, b, hls, ho, hl⟩ := h
      rcases snoc_eq_append_cons hls with ⟨-, rfl, rfl⟩ | ⟨b', rfl, rfl⟩
      · exact absurd ⟨ho, v, hl⟩ hline
      · obtain ⟨v', hlast⟩ := ih ⟨a, l, b', rfl, ho, hl⟩
        exact ⟨v', hlast.snoc fun v'' hunder hitem => hline ⟨hunder, v'', hitem⟩⟩

/-! ## The loop -/

/-- What the loop has stored after the lines `ls`, on top of `conf₀`. -/
structure Loaded (conf₀ : Conf) (ls : List Text) (st : Loading) : Prop where
  good : ∀ l ∈ ls, ¬ IsBad l
  option : UnderOption ls st.curOption
  last : ∀ o k v, AssignsLast ls o k v → entry st.conf o k = some v
  rest : ∀ o k, (∀ v, ¬ Assigns ls o k v) → entry st.conf o k = entry conf₀ o k

variable {conf₀ : Conf}

/-- A line without an assignment. -/
theorem Loaded.snoc_of_no_item (h : Loaded conf₀ ls st) (hgood : ¬ IsBad line)
    (hitem : ∀ k v, ¬ IsItem line k v) (ho : UnderOption (ls ++ [line]) o) :
    Loaded conf₀ (ls ++ [line]) { st with curOption := o } where
  good l hl := by
    rcases List.mem_append.1 hl with hl | hl
    · exact h.good l hl
    · rwa [List.mem_singleton.1 hl]
  option := ho
  last o k v hlast := by
    rcases hlast.of_snoc with ⟨-, hline⟩ | ⟨hls, -⟩
    · exact absurd hline (hitem k v)
    · exact h.last o k v hls
  rest o k hnone := h.rest o k fun v hv => hnone v (hv.snoc line)

theorem Loaded.snoc_item (h : Loaded conf₀ ls st) (hgood : ¬ IsBad line) (hitem : IsItem line k v) :
    Loaded conf₀ (ls ++ [line]) { st with conf := assign st.conf st.curOption k v } where
  good l hl := by
    rcases List.mem_append.1 hl with hl | hl
    · exact h.good l hl
    · rwa [List.mem_singleton.1 hl]
  option := h.option.snoc hitem.not_header
  last o' k' v' hlast := by
    rcases hlast.of_snoc with ⟨ho', hline⟩ | ⟨hls, hline⟩
    · obtain rfl := h.option.unique ho'
      obtain ⟨rfl, rfl⟩ := hitem.unique hline
      exact entry_assign_self _ _ _ _
    · rw [← h.last o' k' v' hls]
      refine entry_assign_of_ne _ _ ?_
      by_contra heq
      obtain ⟨ho', hk'⟩ := not_or.1 heq
      rw [not_not] at ho' hk'
      subst ho' hk'
      exact hline v h.option hitem
  rest o' k' hnone := by
    rw [← h.rest o' k' fun v' hv' => hnone v' (hv'.snoc line)]
    refine entry_assign_of_ne _ _ ?_
    by_contra heq
    obtain ⟨ho', hk'⟩ := not_or.1 heq
    rw [not_not] at ho' hk'
    subst ho' hk'
    exact hnone v (assignsLast_snoc_self h.option hitem).assigns

/-- **One line more.** -/
theorem Loaded.snoc (h : Loaded conf₀ ls st) (hst : loadLine path st line = .ok st') :
    Loaded conf₀ (ls ++ [line]) st' := by
  rcases loadLine_cases path st line with ⟨-, e, he⟩ | ⟨hgood, hskip | hheader | hitem⟩
  · rw [hst] at he
    cases he
  · obtain ⟨hskip, hok⟩ := hskip
    rw [hst] at hok
    obtain rfl := Except.ok.inj hok
    exact h.snoc_of_no_item hgood hskip.not_item (h.option.snoc hskip.not_header)
  · obtain ⟨o, ho, hok⟩ := hheader
    rw [hst] at hok
    obtain rfl := Except.ok.inj hok
    exact h.snoc_of_no_item hgood ho.not_item (underOption_snoc_header ho)
  · obtain ⟨k, v, hkv, hok⟩ := hitem
    rw [hst] at hok
    obtain rfl := Except.ok.inj hok
    exact h.snoc_item hgood hkv

/-- **The whole loop**: it comes to the end of the lines, or to the first bad one. -/
theorem Loaded.loadLines (h : Loaded conf₀ ls st) (path : String) (more : List Text) :
    (∃ st', loadLines path more st = (st', none) ∧ Loaded conf₀ (ls ++ more) st') ∨
    ∃ st' e before bad after, loadLines path more st = (st', some e) ∧
      more = before ++ bad :: after ∧ IsBad bad ∧ Loaded conf₀ (ls ++ before) st' := by
  induction more generalizing ls st with
  | nil => exact Or.inl ⟨st, rfl, by rwa [List.append_nil]⟩
  | cons line more ih =>
    cases hst : loadLine path st line with
    | error e =>
      have hbad : IsBad line := by
        rcases loadLine_cases path st line with ⟨hbad, -⟩ |
          ⟨-, ⟨-, hok⟩ | ⟨o, -, hok⟩ | ⟨k, v, -, hok⟩⟩
        · exact hbad
        all_goals
          rw [hst] at hok
          cases hok
      refine Or.inr ⟨st, e, [], line, more, ?_, rfl, hbad, by rwa [List.append_nil]⟩
      simp only [ConfParser.loadLines, hst]
    | ok st₁ =>
      have hstep : ConfParser.loadLines path (line :: more) st =
          ConfParser.loadLines path more st₁ := by
        simp only [ConfParser.loadLines, hst]
      rw [hstep]
      rcases ih (h.snoc hst) with ⟨st', hend, h'⟩ |
        ⟨st', e, before, bad, after, hend, rfl, hbad, h'⟩
      · exact Or.inl ⟨st', hend, by rwa [List.append_assoc] at h'⟩
      · exact Or.inr ⟨st', e, line :: before, bad, after, hend, rfl, hbad,
          by rwa [List.append_assoc] at h'⟩

theorem Loaded.init (conf₀ : Conf) : Loaded conf₀ [] ⟨[], conf₀⟩ where
  good _ hl := absurd hl List.not_mem_nil
  option := Or.inl ⟨rfl, fun _ hl => absurd hl List.not_mem_nil⟩
  last o k v hlast := by
    obtain ⟨a, l, b, hls, -⟩ := hlast
    exact absurd hls (by simp)
  rest _ _ _ := rfl

/-- Every entry is that of its last assignment, or as it was. -/
theorem Loaded.entry_cases (h : Loaded conf₀ ls st) (o k : Text) :
    (∃ v, AssignsLast ls o k v ∧ entry st.conf o k = some v) ∨
    (∀ v, ¬ Assigns ls o k v) ∧ entry st.conf o k = entry conf₀ o k := by
  by_cases hassigns : ∃ v, Assigns ls o k v
  · obtain ⟨v, hv⟩ := hassigns
    obtain ⟨v', hlast⟩ := hv.exists_last
    exact Or.inl ⟨v', hlast, h.last o k v' hlast⟩
  · have hnone : ∀ v, ¬ Assigns ls o k v := fun v hv => hassigns ⟨v, hv⟩
    exact Or.inr ⟨hnone, h.rest o k hnone⟩

/-- **A failed `load` has applied the lines before the bad one.** For every parser and every file
on which `load` throws a format error, the lines up to the first bad one have been applied, and
nothing else: an entry that an item line among them assigns has the value of the last such line,
every other entry is as before, where `get` returns the same value or throws again, and so are the
path and whether the parser is loaded. -/
theorem load_of_error {s s' : ConfParser} {content : Text} {e : String}
    (h : s.load (some content) = (s', some e)) :
    ∃ before bad after, lines content = before ++ bad :: after ∧ (∀ l ∈ before, ¬ IsBad l) ∧
      IsBad bad ∧ s'.loaded = s.loaded ∧ s'.path = s.path ∧
      ∀ o k, (∃ v, AssignsLast before o k v ∧ entry s'.conf o k = some v) ∨
        (∀ v, ¬ Assigns before o k v) ∧ entry s'.conf o k = entry s.conf o k ∧
          ∀ {Value : Type} (lexicalCast : Text → Option Value),
            (s'.get lexicalCast o k).toOption = (s.get lexicalCast o k).toOption := by
  rcases (Loaded.init s.conf).loadLines s.path (lines content) with
    ⟨st, hend, -⟩ | ⟨st, e', before, bad, after, hend, hlines, hbad, hloaded⟩
  · simp only [load, hend] at h
    cases h
  · simp only [load, hend] at h
    cases h
    refine ⟨before, bad, after, hlines, hloaded.good, hbad, rfl, rfl, fun o k => ?_⟩
    rcases hloaded.entry_cases o k with hlast | ⟨hnone, hsame⟩
    · exact Or.inl hlast
    · refine Or.inr ⟨hnone, hsame, fun lexicalCast => ?_⟩
      rw [toOption_get, toOption_get]
      exact congrArg (fun var => var.bind lexicalCast) hsame

/-- Three lines, and the second is bad: `a` has its new value, and `b` and `c` have none. -/
theorem load_of_error_second :
    ∃ s' e before bad after,
      (construct "conf").load (some ['a', '=', '1', '\n', 'b', '\n', 'c', '=', '2']) =
        (s', some e) ∧
      lines ['a', '=', '1', '\n', 'b', '\n', 'c', '=', '2'] = before ++ bad :: after ∧
      IsBad bad ∧ AssignsLast before [] ['a'] ['1'] ∧ entry s'.conf [] ['a'] = some ['1'] ∧
      (∀ v, ¬ Assigns before [] ['c'] v) ∧ entry s'.conf [] ['c'] = none ∧
      (s'.get some [] ['c']).toOption = ((construct "conf").get some [] ['c']).toOption := by
  have hload : (construct "conf").load (some ['a', '=', '1', '\n', 'b', '\n', 'c', '=', '2']) =
      (_, some _) := rfl
  obtain ⟨before, bad, after, hlines, -, hbad, -, -, hentry⟩ := load_of_error hload
  refine ⟨_, _, before, bad, after, hload, hlines, hbad, ?_⟩
  -- what is stored says which of the two it is
  rcases hentry [] ['a'] with ⟨v, hlast, hv⟩ | ⟨-, hsame, -⟩
  · obtain rfl : ['1'] = v := Option.some.inj hv
    rcases hentry [] ['c'] with ⟨v, -, hv⟩ | ⟨hnone, hsame, hget⟩
    · cases hv
    · exact ⟨hlast, hv, hnone, hsame, hget some⟩
  · cases hsame

/-- `load` is not atomic: the first line stays when it throws at the second. -/
theorem not_atomic :
    ∃ s' e, (construct "conf").load (some ['a', '=', '1', '\n', 'b']) = (s', some e) ∧
      entry (construct "conf").conf [] ['a'] = none ∧ entry s'.conf [] ['a'] = some ['1'] ∧
      (∃ e', (construct "conf").get some [] ['a'] = .error e') ∧
      s'.get some [] ['a'] = .ok ['1'] :=
  ⟨_, _, rfl, rfl, rfl, ⟨_, rfl⟩, rfl⟩

end ConfParser

end Naesala
