import Naesala.Library.Machine
import Naesala.Configure.ConfPrint

/-!
# Saving a configuration

`set` stores any text, and a `load` that throws leaves the lines before the bad one, so a
configuration need not be one that a file has. What `operator<<` prints of it loads as the same
configuration only if `load` could have stored each of its entries.

**Theorem (`saves_iff`).** After any calls of `load` and `set`, the printed configuration loads as
itself if and only if it has an entry and all its entries are printable.
-/

namespace Naesala

namespace ConfParser

variable {s s' : ConfParser} {path path' : String} {conf : Conf}

/-- The calls that change a configuration. -/
inductive Call where
  | load (file : Option Text)
  | set (option key var : Text)

/-- One parser, whose exceptions are caught. -/
def session (path : String) : Machine ConfParser Call where
  init := construct path
  step s
    | .load file => some (s.load file).1
    | .set option key var => some (s.set option key var)

theorem Populated.load (h : Populated s.conf) (file : Option Text) :
    Populated (s.load file).1.conf := by
  cases file with
  | none => exact h
  | some content =>
    have hlines : Populated (ConfParser.loadLines s.path (lines content) ⟨[], s.conf⟩).1.conf :=
      Populated.loadLines h s.path (lines content)
    rw [ConfParser.load]
    generalize ConfParser.loadLines s.path (lines content) ⟨[], s.conf⟩ = result at hlines ⊢
    obtain ⟨st, e⟩ := result
    cases e <;> exact hlines

/-- No call leaves an option without keys. -/
theorem populated_of_reach (hs : (session path).Reachable s) : Populated s.conf := by
  refine hs.invariant (I := fun s => Populated s.conf) populated_empty ?_
  intro s c t h _ hst
  cases c with
  | load file =>
    cases hst
    exact h.load file
  | set option key var =>
    cases hst
    exact h.assign option key var

/-- Every entry can be read back. -/
def Printable (conf : Conf) : Prop :=
  ∀ o k v, entry conf o k = some v → OptionPrintable o ∧ PairPrintable k v

/-- The printed configuration loads on a fresh parser, as itself. -/
def Saves (s : ConfParser) (order : IterationOrder s.conf) (path' : String) : Prop :=
  ∃ s', (construct path').load (some (s.outputElements order)) = (s', none) ∧ s'.conf = s.conf

theorem Printable.saves (h : Printable s.conf) (hpopulated : Populated s.conf) (hne : s.conf ≠ ∅)
    (order : IterationOrder s.conf) (path' : String) : s.Saves order path' := by
  have hprintable : ∀ option ∈ order.options, OptionPrintable option.1 ∧
      ∀ pair ∈ order.pairs option.1, PairPrintable pair.1 pair.2 := by
    intro option hoption
    obtain ⟨hitem, hentry⟩ := entry_of_mem_order order hoption
    obtain ⟨k, v, hkv⟩ := hpopulated _ _ hitem
    have hfirst : entry s.conf option.1 k = some v := by rw [entry, hitem, Option.bind_some, hkv]
    exact ⟨(h _ _ _ hfirst).1, fun pair hpair => (h _ _ _ (hentry hpair)).2⟩
  obtain ⟨o', hend⟩ := loadLines_options hprintable path' ⟨[], ∅⟩
  have hload := load_of_loadLines hend
  refine ⟨_, ?_, conf_ext (populated_of_load hload) hpopulated (entry_assignOptions_order order)⟩
  rw [outputElements, if_neg hne]
  exact hload

/-- What a file gives can be printed. -/
theorem Saves.printable {order : IterationOrder s.conf} (h : s.Saves order path') :
    Printable s.conf := by
  obtain ⟨s', hload, hconf⟩ := h
  obtain ⟨-, o, hloaded⟩ := loaded_of_load hload
  intro o k v hentry
  rw [← hconf] at hentry
  exact hloaded.printable hentry

/-- What is printed of an empty configuration is no configuration. -/
theorem Saves.ne_empty {order : IterationOrder s.conf} (h : s.Saves order path') : s.conf ≠ ∅ := by
  intro hempty
  obtain ⟨s', hload, -⟩ := h
  rw [outputElements, if_pos hempty] at hload
  have hthrows : ∃ s' e, (construct path').load (some "No elements.".toList) = (s', some e) :=
    ⟨_, _, rfl⟩
  obtain ⟨t, e, ht⟩ := hthrows
  rw [ht] at hload
  cases hload

/-- **When a configuration can be saved.** After every run of calls of `load`, of any files, and of
`set`, of any texts, and in whatever order the maps are iterated: the lines after the first one of
what `operator<<` prints load on a fresh parser as the same configuration, if and only if there is
an entry, no option has a closing bracket, no key or value has an equals sign or blanks around it,
no key begins like a comment or a header, and nothing has a line end. -/
theorem saves_iff (hs : (session path).Reachable s) (order : IterationOrder s.conf)
    (path' : String) : s.Saves order path' ↔ s.conf ≠ ∅ ∧ Printable s.conf :=
  ⟨fun h => ⟨h.ne_empty, h.printable⟩,
    fun h => h.2.saves (populated_of_reach hs) h.1 order path'⟩

/-- A value with an equals sign can be stored, but the configuration cannot be saved then. -/
theorem saves_iff_equals : ∃ s, ∃ order : IterationOrder s.conf,
    (session "conf").Reachable s ∧ entry s.conf ['o'] ['a'] = some ['b', '=', 'c'] ∧
      ¬s.Saves order "other" := by
  have hrun := (session "conf").reach_of_run (fun _ _ => True)
    [.load (some "[o]\na=1\nb".toList), .set ['o'] ['a'] ['b', '=', 'c']] rfl
  let order : IterationOrder (assign (assign ∅ ['o'] ['a'] ['1']) ['o'] ['a'] ['b', '=', 'c']) :=
    { options := [⟨['o'], Finmap.singleton ['a'] ['b', '=', 'c']⟩]
      pairs := fun _ => [⟨['a'], ['b', '=', 'c']⟩]
      coe_options := rfl
      coe_pairs := fun option h => by
        rw [List.mem_singleton.1 h]
        rfl }
  refine ⟨_, order, hrun, rfl, fun hsaves => ?_⟩
  have hprintable := ((saves_iff hrun order "other").1 hsaves).2 ['o'] ['a'] ['b', '=', 'c'] rfl
  exact absurd hprintable.2.equals_value (by decide)

end ConfParser

end Naesala
