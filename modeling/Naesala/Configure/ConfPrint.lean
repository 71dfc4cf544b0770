import Naesala.Configure.ConfGrammar

/-!
# What `operator<<` prints, `ConfParser::load` reads

The printer quotes nothing, so the round trip depends on what `load` can have stored. The option of
a header has no closing bracket (`OptionPrintable`). A key and a value of an item line have no `=`
and no blanks around them, and the key does not begin like a comment or a header
(`PairPrintable`); this is so because `load` tells the kinds of lines apart after trimming, and
trims the key and the value once more. Such options and pairs are read back from their printed
lines.

**Theorem (`load_output`).** Whatever `load` has stored on a fresh parser, and in whatever order the
maps are iterated, the lines after the first one of what is printed load as the same configuration.

The maps that `load` builds have no option without keys (`Populated`), so the entries are all there
is to a configuration (`conf_ext`).
-/

namespace Naesala

namespace ConfParser

variable {a b l line o k v rest content : Text} {path : String} {c : Char}
variable {conf conf' : Conf} {st st' : Loading}

/-! ## Trimming -/

theorem mem_of_mem_trim (h : c ∈ trim a) : c ∈ a :=
  List.dropWhile_subset _ (List.rdropWhile_prefix _ _ |>.subset h)

theorem head?_trim (h : (trim a).head? = some c) : isSpace c = false := by
  obtain ⟨t, ht⟩ := List.rdropWhile_prefix isSpace (a.dropWhile isSpace)
  have hhead : (a.dropWhile isSpace).head? = some c := by
    rw [← ht, List.head?_append]
    change (trim a).head?.or t.head? = some c
    rw [h]
    rfl
  have hnot := List.head?_dropWhile_not isSpace a
  rw [hhead] at hnot
  simpa using hnot

theorem getLast?_trim (h : (trim a).getLast? = some c) : isSpace c = false := by
  have hne : trim a ≠ [] := by
    intro hnil
    rw [hnil] at h
    cases h
  have hlast := List.rdropWhile_last_not isSpace (a.dropWhile isSpace) hne
  rw [List.getLast?_eq_some_getLast hne] at h
  rw [← Option.some.inj h]
  exact Bool.eq_false_iff.2 hlast

theorem eq_of_head?_trim_cons {d : Char} (hd : isSpace d = false)
    (h : (trim (d :: a)).head? = some c) : d = c := by
  have hneg : ¬ isSpace d = true := by simp [hd]
  obtain ⟨t, ht⟩ := List.rdropWhile_prefix isSpace ((d :: a).dropWhile isSpace)
  rw [List.dropWhile_cons_of_neg hneg] at ht
  rw [trim, List.dropWhile_cons_of_neg hneg] at h
  have hsame := congrArg List.head? ht
  rw [List.head?_append, h] at hsame
  exact (Option.some.inj hsame).symm

theorem trim_eq_self (hhead : ∀ c, a.head? = some c → isSpace c = false)
    (hlast : ∀ c, a.getLast? = some c → isSpace c = false) : trim a = a := by
  have hfront : a.dropWhile isSpace = a := by
    cases a with
    | nil => rfl
    | cons c a =>
      rw [List.dropWhile_cons_of_neg]
      simp [hhead c rfl]
  rw [trim, hfront, List.rdropWhile_eq_self_iff]
  intro hne
  rw [hlast _ (List.getLast?_eq_some_getLast hne)]
  exact Bool.false_ne_true

theorem trim_trim (a : Text) : trim (trim a) = trim a :=
  trim_eq_self (fun _ => head?_trim) fun _ => getLast?_trim

theorem dropWhile_append_cons (hc : isSpace c = false) :
    (a ++ c :: b).dropWhile isSpace = a.dropWhile isSpace ++ c :: b := by
  induction a with
  | nil =>
    rw [List.nil_append, List.dropWhile_cons_of_neg (by simp [hc])]
    rfl
  | cons d a ih =>
    rw [List.cons_append]
    by_cases hd : isSpace d = true
    · rw [List.dropWhile_cons_of_pos hd, List.dropWhile_cons_of_pos hd, ih]
    · rw [List.dropWhile_cons_of_neg hd, List.dropWhile_cons_of_neg hd, List.cons_append]

theorem trim_append_cons (hc : isSpace c = false) :
    trim (a ++ c :: b) = a.dropWhile isSpace ++ c :: b.rdropWhile isSpace := by
  rw [trim, dropWhile_append_cons hc, List.rdropWhile, List.reverse_append, List.reverse_cons,
    List.append_assoc, List.singleton_append, dropWhile_append_cons hc, List.reverse_append,
    List.reverse_cons, List.reverse_reverse, List.append_assoc]
  rfl

theorem trim_cons_blank (hc : isSpace c = true) : trim (c :: a) = trim a := by
  rw [trim, trim, List.dropWhile_cons_of_pos hc]

theorem trim_concat_blank (hc : isSpace c = true) : trim (a ++ [c]) = trim a := by
  rw [trim, trim, List.dropWhile_append]
  split_ifs with hnil
  · rw [List.isEmpty_iff.1 hnil, List.dropWhile_cons_of_pos hc]
    rfl
  · rw [List.rdropWhile_concat_pos _ _ _ hc]

/-! ## Printed lines -/

/-- An option that is read back. -/
def OptionPrintable (o : Text) : Prop := '\n' ∉ o ∧ ']' ∉ o

/-- A key and a value that are read back. -/
structure PairPrintable (k v : Text) : Prop where
  newline_key : '\n' ∉ k
  newline_value : '\n' ∉ v
  equals_key : '=' ∉ k
  equals_value : '=' ∉ v
  trim_key : trim k = k
  trim_value : trim v = v
  hash : k.head? ≠ some '#'
  bracket : k.head? ≠ some '['

/-- The line of an option. -/
def headerLine (o : Text) : Text := '[' :: o ++ [']']

/-- The line of a key and a value. -/
def itemLine (pair : Σ _ : Text, Text) : Text := pair.1 ++ [' ', '=', ' '] ++ pair.2

theorem isHeader_headerLine (h : OptionPrintable o) : IsHeader (headerLine o) o := by
  refine ⟨h.2, [], trim_eq_self (fun c hc => ?_) fun c hc => ?_⟩
  · obtain rfl : '[' = c := Option.some.inj hc
    rfl
  · rw [headerLine, List.getLast?_concat] at hc
    obtain rfl : ']' = c := Option.some.inj hc
    rfl

/-- The blank before `=` is gone if the key is empty. -/
theorem head?_key (hk : trim k = k) : ((k ++ [' ']).dropWhile isSpace).head? = k.head? := by
  cases k with
  | nil => rfl
  | cons d k =>
    have hd : isSpace d = false := head?_trim (a := d :: k) (by rw [hk]; rfl)
    rw [List.cons_append, List.dropWhile_cons_of_neg (by simp [hd])]
    rfl

theorem trim_value (hv : trim v = v) : trim ((' ' :: v).rdropWhile isSpace) = v := by
  rcases List.eq_nil_or_concat v with rfl | ⟨w, d, rfl⟩
  · rfl
  · rw [List.concat_eq_append] at hv ⊢
    have hd : isSpace d = false :=
      getLast?_trim (a := w ++ [d]) (by rw [hv, List.getLast?_concat])
    rw [← List.cons_append, List.rdropWhile_concat_neg _ _ _ (by simp [hd]), List.cons_append,
      trim_cons_blank rfl, hv]

theorem isItem_itemLine (h : PairPrintable k v) : IsItem (itemLine ⟨k, v⟩) k v := by
  have htrim : trim (itemLine ⟨k, v⟩) =
      (k ++ [' ']).dropWhile isSpace ++ '=' :: (' ' :: v).rdropWhile isSpace := by
    rw [← trim_append_cons (c := '=') rfl, itemLine]
    congr 1
    simp
  have hhead : (trim (itemLine ⟨k, v⟩)).head? = k.head?.or (some '=') := by
    rw [htrim, List.head?_append, head?_key h.trim_key]
    rfl
  have hne : ∀ c, c ≠ '=' → k.head? ≠ some c → (trim (itemLine ⟨k, v⟩)).head? ≠ some c := by
    intro c hc hk heq
    rw [hhead] at heq
    rcases Option.or_eq_some_iff.1 heq with hkey | ⟨-, hequals⟩
    · exact hk hkey
    · exact hc (Option.some.inj hequals).symm
  refine ⟨_, _, htrim, fun hmem => ?_, fun hmem => ?_, hne _ (by decide) h.hash,
    hne _ (by decide) h.bracket, ?_, trim_value h.trim_value⟩
  · have hin := List.dropWhile_subset _ hmem
    simp [h.equals_key] at hin
  · have hin := (List.rdropWhile_prefix _ _).subset hmem
    simp [h.equals_value] at hin
  · rw [trim, List.dropWhile_idempotent, ← trim, trim_concat_blank rfl, h.trim_key]

/-! ## What `load` stores can be printed -/

theorem newline_notMem_of_mem_lines (h : line ∈ lines content) : '\n' ∉ line := by
  induction content generalizing line with
  | nil => cases h
  | cons c content ih =>
    rw [lines] at h
    split_ifs at h with hc
    · rcases List.mem_cons.1 h with rfl | hmem
      · exact List.not_mem_nil
      · exact ih hmem
    · cases hls : lines content with
      | nil =>
        rw [hls] at h
        rw [List.mem_singleton.1 h, List.mem_singleton]
        exact fun heq => hc heq.symm
      | cons l ls =>
        rw [hls] at h ih
        rcases List.mem_cons.1 h with rfl | hmem
        · rw [List.mem_cons, not_or]
          exact ⟨fun heq => hc heq.symm, ih List.mem_cons_self⟩
        · exact ih (List.mem_cons_of_mem _ hmem)

theorem IsHeader.printable (h : IsHeader line o) (hline : '\n' ∉ line) : OptionPrintable o := by
  obtain ⟨ho, rest, htrim⟩ := h
  refine ⟨fun hmem => hline (mem_of_mem_trim ?_), ho⟩
  rw [htrim]
  simp [hmem]

theorem UnderOption.printable {ls : List Text} (h : UnderOption ls o)
    (hls : ∀ l ∈ ls, '\n' ∉ l) : OptionPrintable o := by
  rcases h with ⟨rfl, -⟩ | ⟨a, header, b, rfl, hheader, -⟩
  · exact ⟨List.not_mem_nil, List.not_mem_nil⟩
  · exact hheader.printable (hls header (by simp))

theorem IsItem.printable (h : IsItem line k v) (hline : '\n' ∉ line) : PairPrintable k v := by
  obtain ⟨l, r, htrim, hl, hr, hhash, hopen, rfl, rfl⟩ := h
  have hnewline : '\n' ∉ l ++ '=' :: r := fun hmem => hline (mem_of_mem_trim (htrim ▸ hmem))
  -- What the key begins with, the line begins with.
  have hhead : ∀ c, (trim l).head? = some c → (trim line).head? = some c := by
    intro c hc
    cases l with
    | nil => cases hc
    | cons d l =>
      have hline : (trim line).head? = some d := by rw [htrim]; rfl
      rw [hline, eq_of_head?_trim_cons (head?_trim hline) hc]
  exact {
    newline_key := fun hmem => hnewline (List.mem_append_left _ (mem_of_mem_trim hmem))
    newline_value := fun hmem =>
      hnewline (List.mem_append_right _ (List.mem_cons_of_mem _ (mem_of_mem_trim hmem)))
    equals_key := fun hmem => hl (mem_of_mem_trim hmem)
    equals_value := fun hmem => hr (mem_of_mem_trim hmem)
    trim_key := trim_trim l
    trim_value := trim_trim r
    hash := fun heq => hhash (hhead _ heq)
    bracket := fun heq => hopen (hhead _ heq) }

/-- What is stored on a fresh parser is printable. -/
theorem Loaded.printable (h : Loaded ∅ (lines content) st) (hentry : entry st.conf o k = some v) :
    OptionPrintable o ∧ PairPrintable k v := by
  obtain ⟨a, l, b, hls, ho, hl⟩ := ((h.entry_iff o k v).1 hentry).assigns
  have hnewline : ∀ l' ∈ a ++ l :: b, '\n' ∉ l' := by
    intro l' hl'
    exact newline_notMem_of_mem_lines (hls ▸ hl')
  refine ⟨ho.printable fun l' hl' => hnewline l' ?_, hl.printable (hnewline l ?_)⟩
  · exact List.mem_append_left _ hl'
  · simp

/-! ## A configuration is its entries -/

/-- No option is without keys. -/
def Populated (conf : Conf) : Prop :=
  ∀ o item, conf.lookup o = some item → ∃ k v, item.lookup k = some v

theorem populated_empty : Populated ∅ := by
  intro o item h
  rw [Finmap.lookup_empty] at h
  cases h

theorem Populated.assign (h : Populated conf) (o k v : Text) : Populated (assign conf o k v) := by
  intro o' item hitem
  rw [ConfParser.assign] at hitem
  by_cases ho : o' = o
  · subst ho
    rw [Finmap.lookup_insert] at hitem
    rw [← Option.some.inj hitem]
    exact ⟨k, v, Finmap.lookup_insert _⟩
  · rw [Finmap.lookup_insert_of_ne _ ho] at hitem
    exact h o' item hitem

theorem Populated.loadLine (h : Populated st.conf) (hst : loadLine path st line = .ok st') :
    Populated st'.conf := by
  rcases loadLine_cases path st line with ⟨-, e, he⟩ | ⟨-, ⟨-, hok⟩ | ⟨o, -, hok⟩ | ⟨k, v, -, hok⟩⟩
  · rw [hst] at he
    cases he
  all_goals
    rw [hst] at hok
    obtain rfl := Except.ok.inj hok
  · exact h
  · exact h
  · exact h.assign _ k v

theorem Populated.loadLines (h : Populated st.conf) (path : String) (ls : List Text) :
    Populated (loadLines path ls st).1.conf := by
  induction ls generalizing st with
  | nil => exact h
  | cons line ls ih =>
    rw [ConfParser.loadLines]
    cases hst : ConfParser.loadLine path st line with
    | error e => exact h
    | ok st' => exact ih (h.loadLine hst)

/-- What `load` has stored on a fresh parser. -/
theorem populated_of_load {s : ConfParser} (h : (construct path).load (some content) = (s, none)) :
    Populated s.conf := by
  obtain ⟨-, o, hend⟩ := exists_loadLines h
  have hall : Populated (loadLines path (lines content) ⟨[], ∅⟩).1.conf :=
    Populated.loadLines populated_empty path (lines content)
  rwa [hend] at hall

theorem conf_ext (h : Populated conf) (h' : Populated conf')
    (heq : ∀ o k, entry conf o k = entry conf' o k) : conf = conf' := by
  have hsome : ∀ {c c' : Conf}, Populated c → (∀ o k, entry c o k = entry c' o k) →
      ∀ o item, c.lookup o = some item → c'.lookup o = some item := by
    intro c c' hc hcc o item hitem
    obtain ⟨k, v, hv⟩ := hc o item hitem
    have hentry := hcc o k
    rw [entry, hitem, Option.bind_some, hv] at hentry
    obtain ⟨item', hitem', -⟩ := Option.bind_eq_some_iff.1 hentry.symm
    rw [hitem']
    refine congrArg some (Finmap.ext_lookup fun k' => ?_)
    have hsame := hcc o k'
    rw [entry, entry, hitem, hitem'] at hsame
    exact hsame.symm
  refine Finmap.ext_lookup fun o => Option.ext fun item => ?_
  exact ⟨hsome h heq o item, hsome h' (fun o k => (heq o k).symm) o item⟩

/-! ## What the printed lines assign -/

/-- The pairs of an option, assigned in order. -/
def assignPairs (conf : Conf) (o : Text) (pairs : List (Σ _ : Text, Text)) : Conf :=
  pairs.foldl (fun conf pair => assign conf o pair.1 pair.2) conf

/-- The options, assigned in order. -/
def assignOptions (conf : Conf) (options : List (Σ _ : Text, Item))
    (pairs : Text → List (Σ _ : Text, Text)) : Conf :=
  options.foldl (fun conf option => assignPairs conf option.1 (pairs option.1)) conf

variable {pairs : List (Σ _ : Text, Text)} {options : List (Σ _ : Text, Item)}
variable {pairsOf : Text → List (Σ _ : Text, Text)} {o' : Text}

theorem entry_assignPairs_of_ne (ho : o' ≠ o) (k : Text) :
    entry (assignPairs conf o pairs) o' k = entry conf o' k := by
  induction pairs generalizing conf with
  | nil => rfl
  | cons pair pairs ih =>
    rw [assignPairs, List.foldl_cons, ← assignPairs, ih]
    exact entry_assign_of_ne _ _ (Or.inl ho)

theorem entry_assignPairs (hnodup : pairs.NodupKeys) (k : Text) :
    entry (assignPairs conf o pairs) o k = (pairs.dlookup k).or (entry conf o k) := by
  induction pairs generalizing conf with
  | nil => rfl
  | cons pair pairs ih =>
    obtain ⟨hnotMem, hnodup⟩ := List.nodupKeys_cons.1 hnodup
    rw [assignPairs, List.foldl_cons, ← assignPairs, ih hnodup]
    by_cases hk : k = pair.1
    · subst hk
      rw [entry_assign_self, List.dlookup_eq_none.2 hnotMem, List.dlookup_cons_eq]
      rfl
    · rw [entry_assign_of_ne _ _ (Or.inr hk), List.dlookup_cons_ne _ _ hk]

theorem entry_assignOptions (hnodup : options.NodupKeys)
    (hpairs : ∀ option ∈ options, (pairsOf option.1).NodupKeys) (o k : Text) :
    entry (assignOptions conf options pairsOf) o k =
      ((options.dlookup o).bind fun _ => (pairsOf o).dlookup k).or (entry conf o k) := by
  induction options generalizing conf with
  | nil => rfl
  | cons option options ih =>
    obtain ⟨hnotMem, hnodup⟩ := List.nodupKeys_cons.1 hnodup
    rw [assignOptions, List.foldl_cons, ← assignOptions,
      ih hnodup fun option' h => hpairs option' (List.mem_cons_of_mem _ h)]
    by_cases ho : o = option.1
    · subst ho
      rw [entry_assignPairs (hpairs option List.mem_cons_self), List.dlookup_eq_none.2 hnotMem,
        List.dlookup_cons_eq]
      rfl
    · rw [entry_assignPairs_of_ne ho, List.dlookup_cons_ne _ _ ho]

/-- A map looked up in a list of its entries. -/
theorem dlookup_of_entries {β : Type} {s : Finmap fun _ : Text => β} {l : List (Σ _ : Text, β)}
    (hl : (l : Multiset (Σ _ : Text, β)) = s.entries) (k : Text) :
    l.NodupKeys ∧ l.dlookup k = s.lookup k := by
  have hnodup : l.NodupKeys := by
    have hs := s.nodupKeys
    rwa [← hl] at hs
  refine ⟨hnodup, Option.ext fun v => ?_⟩
  rw [Finmap.lookup_eq_some_iff, ← hl, Multiset.mem_coe]
  exact List.mem_dlookup_iff hnodup

/-- Assigning what is iterated gives the entries back. -/
theorem entry_assignOptions_order (order : IterationOrder conf) (o k : Text) :
    entry (assignOptions ∅ order.options order.pairs) o k = entry conf o k := by
  obtain ⟨hnodup, hlookup⟩ := dlookup_of_entries order.coe_options o
  have hpairs : ∀ option ∈ order.options, (order.pairs option.1).NodupKeys := by
    intro option hoption
    exact (dlookup_of_entries (order.coe_pairs option hoption) k).1
  rw [entry_assignOptions hnodup hpairs, entry_empty, Option.or_none, hlookup, entry]
  cases hitem : conf.lookup o with
  | none => rfl
  | some item =>
    have hmem : ⟨o, item⟩ ∈ order.options := List.of_mem_dlookup (hlookup.trans hitem)
    exact (dlookup_of_entries (order.coe_pairs _ hmem) k).2

theorem entry_of_mem_order (order : IterationOrder conf) {item : Item}
    (hoption : ⟨o, item⟩ ∈ order.options) :
    conf.lookup o = some item ∧ ∀ {k v}, ⟨k, v⟩ ∈ order.pairs o → entry conf o k = some v := by
  have hitem : conf.lookup o = some item := by
    rw [Finmap.lookup_eq_some_iff, ← order.coe_options]
    exact hoption
  refine ⟨hitem, fun {k v} hpair => ?_⟩
  rw [entry, hitem, Option.bind_some, Finmap.lookup_eq_some_iff, ← order.coe_pairs _ hoption]
  exact hpair

/-! ## Loading what is printed -/

theorem lines_append (h : '\n' ∉ l) (rest : Text) :
    lines (l ++ '\n' :: rest) = l :: lines rest := by
  induction l with
  | nil => rw [List.nil_append, lines, if_pos rfl]
  | cons c l ih =>
    obtain ⟨hc, hl⟩ := not_or.1 (fun hor => h (List.mem_cons.2 hor))
    rw [List.cons_append, lines, if_neg (Ne.symm hc), ih hl]

theorem newline_notMem_itemLine (h : PairPrintable k v) : '\n' ∉ itemLine ⟨k, v⟩ := by
  simp [itemLine, h.newline_key, h.newline_value]

theorem lines_pairs (hpairs : ∀ pair ∈ pairs, PairPrintable pair.1 pair.2) (rest : Text) :
    lines ((pairs.flatMap fun pair => pair.1 ++ [' ', '=', ' '] ++ pair.2 ++ ['\n']) ++ rest) =
      pairs.map itemLine ++ lines rest := by
  induction pairs with
  | nil => rfl
  | cons pair pairs ih =>
    have hpair := newline_notMem_itemLine (hpairs pair List.mem_cons_self)
    have hrest := ih fun pair' h => hpairs pair' (List.mem_cons_of_mem _ h)
    rw [List.flatMap_cons, List.append_assoc, List.append_assoc, List.singleton_append,
      List.map_cons, List.cons_append, ← hrest]
    exact lines_append hpair _

theorem lines_outputOption (ho : OptionPrintable o)
    (hpairs : ∀ pair ∈ pairs, PairPrintable pair.1 pair.2) (rest : Text) :
    lines (outputOption o pairs ++ rest) =
      headerLine o :: (pairs.map itemLine ++ lines rest) := by
  have hheader : '\n' ∉ headerLine o := by simp [headerLine, ho.1]
  rw [← lines_pairs hpairs, ← lines_append hheader]
  simp [outputOption, headerLine]

theorem loadLines_pairs (hpairs : ∀ pair ∈ pairs, PairPrintable pair.1 pair.2) (ls : List Text) :
    loadLines path (pairs.map itemLine ++ ls) ⟨o, conf⟩ =
      loadLines path ls ⟨o, assignPairs conf o pairs⟩ := by
  induction pairs generalizing conf with
  | nil => rfl
  | cons pair pairs ih =>
    have hitem := isItem_itemLine (hpairs pair List.mem_cons_self)
    rw [List.map_cons, List.cons_append, loadLines, loadLine_of_item hitem, assignPairs,
      List.foldl_cons, ← assignPairs]
    exact ih fun pair' h => hpairs pair' (List.mem_cons_of_mem _ h)

/-- **The printed options load, one after the other.** -/
theorem loadLines_options (hoptions : ∀ option ∈ options, OptionPrintable option.1 ∧
      ∀ pair ∈ pairsOf option.1, PairPrintable pair.1 pair.2) (path : String) (st : Loading) :
    ∃ o', loadLines path (lines (options.flatMap fun option =>
        outputOption option.1 (pairsOf option.1))) st =
      (⟨o', assignOptions st.conf options pairsOf⟩, none) := by
  induction options generalizing st with
  | nil => exact ⟨st.curOption, rfl⟩
  | cons option options ih =>
    obtain ⟨ho, hpairs⟩ := hoptions option List.mem_cons_self
    rw [List.flatMap_cons, lines_outputOption ho hpairs, loadLines,
      loadLine_of_header (isHeader_headerLine ho), assignOptions, List.foldl_cons, ← assignOptions]
    simp only [loadLines_pairs hpairs]
    exact ih (fun option' h => hoptions option' (List.mem_cons_of_mem _ h)) ⟨option.1, _⟩

/-- **Printing and loading is a round trip.** For every file from which `load` succeeds on a fresh
parser with options, and every order in which the maps are iterated: the lines after the first one
of what `operator<<` prints load on a fresh parser, as the same configuration. -/
theorem load_output {s : ConfParser} (h : (construct path).load (some content) = (s, none))
    (hne : s.conf ≠ ∅) (order : IterationOrder s.conf) (path' : String) :
    ∃ printed s', s.output order = s.outputHeader ++ printed ∧
      (construct path').load (some printed) = (s', none) ∧ s'.conf = s.conf ∧
      ∀ o k, entry s'.conf o k = entry s.conf o k := by
  obtain ⟨-, o₀, hloaded⟩ := loaded_of_load h
  have hpopulated : Populated s.conf := populated_of_load h
  have hprintable : ∀ option ∈ order.options, OptionPrintable option.1 ∧
      ∀ pair ∈ order.pairs option.1, PairPrintable pair.1 pair.2 := by
    intro option hoption
    obtain ⟨hitem, hentry⟩ := entry_of_mem_order order hoption
    obtain ⟨k, v, hkv⟩ := hpopulated _ _ hitem
    have hfirst : entry s.conf option.1 k = some v := by rw [entry, hitem, Option.bind_some, hkv]
    exact ⟨(hloaded.printable hfirst).1, fun pair hpair => (hloaded.printable (hentry hpair)).2⟩
  obtain ⟨o', hend⟩ := loadLines_options hprintable path' ⟨[], ∅⟩
  have hload := load_of_loadLines hend
  have hentry := entry_assignOptions_order order
  have hsame := conf_ext (populated_of_load hload) hpopulated hentry
  refine ⟨_, _, ?_, hload, hsame, hentry⟩
  rw [output, outputElements, if_neg hne]

/-- A file that opens a section twice and assigns a key of it again. -/
theorem load_output_reopened :
    ∃ (s : ConfParser) (order : IterationOrder s.conf) (printed : Text) (s' : ConfParser),
      (construct "conf").load (some "[o]\na=1\n[o] x\n a = 2".toList) = (s, none) ∧
        s.output order = s.outputHeader ++ printed ∧
        (construct "other").load (some printed) = (s', none) ∧
        entry s'.conf ['o'] ['a'] = some ['2'] := by
  have hload : (construct "conf").load (some "[o]\na=1\n[o] x\n a = 2".toList) =
      (⟨true, "conf", assign (assign ∅ ['o'] ['a'] ['1']) ['o'] ['a'] ['2']⟩, none) := rfl
  let order : IterationOrder (assign (assign ∅ ['o'] ['a'] ['1']) ['o'] ['a'] ['2']) :=
    { options := [⟨['o'], Finmap.singleton ['a'] ['2']⟩]
      pairs := fun _ => [⟨['a'], ['2']⟩]
      coe_options := rfl
      coe_pairs := fun option h => by
        rw [List.mem_singleton.1 h]
        rfl }
  obtain ⟨printed, s', hout, hs', -, hentry⟩ := load_output hload (by decide) order "other"
  exact ⟨_, order, printed, s', hload, hout, hs', hentry ['o'] ['a']⟩

end ConfParser

end Naesala
