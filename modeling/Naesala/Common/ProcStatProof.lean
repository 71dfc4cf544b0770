import Mathlib.Tactic.NormNum
import Naesala.Common.ProcStat

/-!
# What `ProcStat::update` recovers

`update` reads the command as a word, and a word ends at a blank. If the command has none, then the
word is the command in its parentheses, and the numbers after it are read one by one, as long as
they fit into their members. If it has one, then the word ends in the command: what is copied is too
short, or nothing at all.

**Theorem (`recovers_iff`).** `update` returns true on every line that the kernel writes. It
recovers the members from the line if and only if the command has no blank and each number fits into
its member.
-/

namespace Naesala

namespace ProcStat

open Istream
open ConfParser (isSpace)

variable {s s' : ProcStat} {line : StatLine} {f : Field} {fs : List Field} {stream : Istream}
variable {files : String → File} {pid : Int32} {c : Char} {w rest : Text}

/-! ## Characters -/

theorem isSpace_of_le (h : 33 ≤ c.toNat) : isSpace c = false := by
  have hne : c ≠ ' ' := by
    intro heq
    rw [heq] at h
    exact absurd h (by decide)
  simp only [isSpace, hne, decide_false, Bool.false_or, Bool.and_eq_false_iff,
    decide_eq_false_iff_not]
  omega

theorem plain_isSpace : Plain isSpace where
  digit c h := by
    refine isSpace_of_le ?_
    simp only [Char.isDigit, Bool.and_eq_true, decide_eq_true_eq] at h
    have hle : '0'.toNat ≤ c.toNat := h.1
    exact le_trans (by decide) hle
  minus := rfl

/-! ## Extracting the members -/

theorem number_set_self (s : ProcStat) (f : Field) (n : f.type.Value) :
    (s.set f n).number f = n := by
  show Function.update s.number f n f = n
  exact Function.update_self _ _ _

theorem number_set_of_ne (s : ProcStat) {g : Field} (n : g.type.Value) (h : f ≠ g) :
    (s.set g n).number f = s.number f := by
  show Function.update s.number g n f = s.number f
  exact Function.update_of_ne h _ _

theorem command_readFields : (readFields fs stream s).command = s.command := by
  induction fs generalizing stream s with
  | nil => rfl
  | cons f fs ih => exact ih

theorem taskState_readFields : (readFields fs stream s).taskState = s.taskState := by
  induction fs generalizing stream s with
  | nil => rfl
  | cons f fs ih => exact ih

theorem readFields_of_notMem (h : f ∉ fs) : (readFields fs stream s).number f = s.number f := by
  induction fs generalizing stream s with
  | nil => rfl
  | cons g fs ih =>
    obtain ⟨hne, hnot⟩ := not_or.1 fun hor => h (List.mem_cons.2 hor)
    rw [readFields]
    exact (ih hnot).trans (number_set_of_ne s _ hne)

theorem head?_columns {numbers : List ℤ} (hrest : ∀ c, rest.head? = some c → c.isDigit = false) :
    ∀ c, (numbers.flatMap column ++ rest).head? = some c → c.isDigit = false := by
  cases numbers with
  | nil => exact hrest
  | cons n numbers => exact head?_cons_of rfl

/-- **Numbers that fit are read, one after the other.** -/
theorem number_readFields (numbers : Field → ℤ) (hnodup : fs.Nodup)
    (hfit : ∀ f ∈ fs, f.type.Contains (numbers f))
    (hrest : ∀ c, rest.head? = some c → c.isDigit = false) (hf : f ∈ fs) :
    ((readFields fs ⟨(fs.map numbers).flatMap column ++ rest, false⟩ s).number f).val =
      numbers f := by
  induction fs generalizing s with
  | nil => exact absurd hf List.not_mem_nil
  | cons g fs ih =>
    obtain ⟨hnot, hnodup⟩ := List.nodup_cons.1 hnodup
    let n : g.type.Value := ⟨numbers g, hfit g List.mem_cons_self⟩
    have hread : readInt isSpace g.type
        ⟨((g :: fs).map numbers).flatMap column ++ rest, false⟩ (s.number g) =
          (⟨(fs.map numbers).flatMap column ++ rest, false⟩, n) := by
      rw [List.map_cons, List.flatMap_cons, column, List.append_assoc, List.cons_append,
        readInt_blank rfl]
      exact readInt_decimal plain_isSpace n (head?_columns hrest) _
    rw [readFields, hread]
    by_cases hfg : f = g
    · subst hfg
      rw [readFields_of_notMem hnot, number_set_self]
    · have hin : f ∈ fs := (List.mem_cons.1 hf).resolve_left hfg
      exact ih hnodup (fun f' h => hfit f' (List.mem_cons_of_mem _ h)) hin

/-! ## The command -/

theorem commandString_of_append (h : s.command = w ++ '\x00' :: rest)
    (hw : ∀ c ∈ w, c ≠ '\x00') : s.commandString = w := by
  have hall : ∀ c ∈ w, decide (c ≠ '\x00') = true := by
    intro c hc
    exact decide_eq_true (hw c hc)
  rw [commandString, h]
  exact (takeWhile_append_cons hall (head?_cons_of (by decide))).1

theorem copy_of_le (s : ProcStat) {bytes : Text} (h : bytes.length ≤ posixPathMax) :
    ∃ s', s.copy bytes = some s' ∧ s'.command = bytes ++ s.command.drop bytes.length ∧
      s'.number = s.number :=
  ⟨_, dif_pos h, rfl, rfl⟩

theorem copyCommand_cons (s : ProcStat) (c : Char) (hw : ∀ c ∈ w, c ≠ '\x00')
    (hlength : w.length ≤ posixPathMax) :
    ∃ s', s.copyCommand (c :: w) = some s' ∧ s'.number = s.number ∧
      s'.commandString = if w = [] then s.commandString else w.dropLast := by
  rcases List.eq_nil_or_concat w with rfl | ⟨v, d, rfl⟩
  · exact ⟨s, rfl, rfl, rfl⟩
  · rw [List.concat_eq_append] at hw hlength ⊢
    have hbytes : ((((c :: (v ++ [d])).drop 1).take ((c :: (v ++ [d])).length - 2)) ++
        ['\x00']).take ((c :: (v ++ [d])).length - 1) = v ++ ['\x00'] := by
      simp
    have hfits : (v ++ ['\x00']).length ≤ posixPathMax := by simpa using hlength
    obtain ⟨s', hcopy, hcommand, hnumber⟩ := copy_of_le s hfits
    refine ⟨s', ?_, hnumber, ?_⟩
    · rw [copyCommand, if_neg (List.cons_ne_nil _ _), hbytes, hcopy]
    · rw [if_neg (by simp), List.dropLast_concat]
      rw [List.append_assoc] at hcommand
      exact commandString_of_append hcommand fun c hc => hw c (List.mem_append_left _ hc)

/-! ## The line -/

/-- The command has no blank. -/
def StatLine.OneWord (line : StatLine) : Prop := ∀ c ∈ line.comm, isSpace c = false

instance (line : StatLine) : Decidable line.OneWord :=
  inferInstanceAs (Decidable (∀ c ∈ line.comm, isSpace c = false))

/-- Each number fits into its member. -/
def StatLine.Fits (line : StatLine) : Prop := ∀ f : Field, f.type.Contains (line.number f)

/-- What comes after the state. -/
def StatLine.numbers (line : StatLine) : Text :=
  (extracted.map fun f => (line.number f).val).flatMap column ++
    (line.further.flatMap column ++ ['\n'])

theorem StatLine.text_eq (line : StatLine) :
    line.text = decimal (line.number .pid) ++
      ' ' :: '(' :: ((line.comm ++ [')']) ++ ' ' :: line.state :: line.numbers) := by
  simp [StatLine.text, StatLine.numbers, List.flatMap_map]

/-- The word that `update` reads, without the first bracket. -/
def StatLine.word (line : StatLine) : Text := (line.comm ++ [')']).takeWhile fun c => !isSpace c

theorem takeWhile_append_blank (a b : Text) :
    (a ++ ' ' :: b).takeWhile (fun c => !isSpace c) = a.takeWhile fun c => !isSpace c := by
  rw [List.takeWhile_append]
  split_ifs with hall
  · rw [List.takeWhile_cons_of_neg (by decide), List.append_nil]
    exact ((List.takeWhile_prefix _).eq_of_length hall).symm
  · rfl

theorem StatLine.word_chars (line : StatLine) :
    (∀ c ∈ line.word, c ≠ '\x00') ∧ line.word.length ≤ posixPathMax := by
  have hinitial : line.word <+: line.comm ++ [')'] := List.takeWhile_prefix _
  constructor
  · intro c hc
    rcases List.mem_append.1 (hinitial.subset hc) with hcomm | hparen
    · exact (line.comm_chars c hcomm).1
    · rw [List.mem_singleton.1 hparen]
      decide
  · have hlength := hinitial.length_le
    have hcomm := line.length_comm
    rw [List.length_append, List.length_singleton] at hlength
    show line.word.length ≤ 256
    omega

theorem nonblank_of_oneWord (h : line.OneWord) : ∀ c ∈ line.comm ++ [')'], (!isSpace c) = true := by
  intro c hc
  rcases List.mem_append.1 hc with hcomm | hparen
  · rw [h c hcomm]
    rfl
  · rw [List.mem_singleton.1 hparen]
    rfl

theorem word_of_oneWord (h : line.OneWord) : line.word = line.comm ++ [')'] :=
  List.takeWhile_eq_self_iff.2 (nonblank_of_oneWord h)

/-- What comes after the number of the process. -/
def StatLine.tail (line : StatLine) : Text :=
  ' ' :: '(' :: ((line.comm ++ [')']) ++ ' ' :: line.state :: line.numbers)

theorem readInt_text (line : StatLine) (old : int.Value) :
    readInt isSpace int ⟨line.text, false⟩ old = (⟨line.tail, false⟩, line.number .pid) := by
  rw [line.text_eq]
  exact readInt_decimal plain_isSpace (line.number .pid) (head?_cons_of rfl) old

theorem readWord_tail (line : StatLine) :
    ∃ rest, readWord isSpace ⟨line.tail, false⟩ [] = (⟨rest, false⟩, '(' :: line.word) ∧
      (line.OneWord → rest = ' ' :: line.state :: line.numbers) := by
  rw [StatLine.tail, readWord_blank rfl, readWord_cons rfl, takeWhile_append_blank]
  refine ⟨_, rfl, fun hone => ?_⟩
  exact (takeWhile_append_cons (nonblank_of_oneWord hone) (head?_cons_of rfl)).2

theorem mem_extracted (f : Field) : f = .pid ∨ f ∈ extracted := by
  cases f <;> simp [extracted]

theorem isSpace_of_letter (h : c.isAlpha = true) : isSpace c = false := by
  refine isSpace_of_le ?_
  have hcase : c.isUpper = true ∨ c.isLower = true := (Bool.or_eq_true _ _).mp h
  rcases hcase with hupper | hlower
  · have hrange : 'A'.val ≤ c.val ∧ c.val ≤ 'Z'.val := of_decide_eq_true hupper
    have hle : 'A'.toNat ≤ c.toNat := hrange.1
    exact le_trans (by decide) hle
  · have hrange : (decide ('a'.val ≤ c.val) && decide (c.val ≤ 'z'.val)) = true := hlower
    have hle : 'a'.toNat ≤ c.toNat := of_decide_eq_true ((Bool.and_eq_true _ _).mp hrange).1
    exact le_trans (by decide) hle

/-- **What `update` reads from a line**: part of the command, and, if it is one word and the numbers
fit, the state and the numbers. -/
theorem exists_read (line : StatLine) (s : ProcStat) :
    ∃ s', s.read line.text = some s' ∧
      s'.commandString = (if line.word = [] then s.commandString else line.word.dropLast) ∧
      (line.OneWord → line.Fits →
        s'.taskState = line.state ∧ ∀ f, (s'.number f).val = line.number f) := by
  have hpid := readInt_text line (s.number .pid)
  obtain ⟨rest, hword, hrest⟩ := readWord_tail line
  obtain ⟨hchars, hlength⟩ := line.word_chars
  obtain ⟨s₁, hcopy, hnumber, hcommand⟩ :=
    copyCommand_cons (s.set .pid (line.number .pid)) '(' hchars hlength
  let state := readChar isSpace ⟨rest, false⟩ s₁.taskState
  let s' := readFields extracted state.1 { s₁ with taskState := state.2 }
  have hread : s.read line.text = some s' := by
    simp only [read, hpid, hword, hcopy, Option.map_some]
    rfl
  refine ⟨s', hread, ?_, fun hone hfits => ?_⟩
  · rw [commandString, command_readFields]
    exact hcommand
  obtain rfl := hrest hone
  have hstate : state = (⟨line.numbers, false⟩, line.state) := by
    show readChar isSpace _ _ = _
    rw [readChar_blank rfl, readChar_cons (isSpace_of_letter line.state_letter)]
  refine ⟨taskState_readFields.trans (congrArg Prod.snd hstate), fun f => ?_⟩
  rcases mem_extracted f with rfl | hf
  · have hpid' : s'.number .pid = s₁.number .pid := readFields_of_notMem (by decide)
    rw [hpid', hnumber]
    exact congrArg Subtype.val (number_set_self s .pid _)
  · have hrest : ∀ c, (line.further.flatMap column ++ ['\n']).head? = some c →
        c.isDigit = false :=
      head?_columns (head?_cons_of rfl)
    show ((readFields extracted state.1 _).number f).val = _
    rw [hstate]
    exact number_readFields (fun f => line.number f) (by decide) (fun f _ => hfits f) hrest hf

/-! ## `update` -/

/-- Whenever `update` returns true, the members are what the line says. -/
def Recovers (files : String → File) (pid : Int32) (line : StatLine) : Prop :=
  ∀ s s', update files pid s = some (true, s') → s'.commandString = line.comm ∧
    s'.taskState = line.state ∧ ∀ f, (s'.number f).val = line.number f

/-- An object whose members are zero. -/
def zero : ProcStat where
  command := List.replicate posixPathMax '\x00'
  taskState := '\x00'
  number f := f.type.zero
  euid := 0
  egid := 0
  length_command := List.length_replicate

/-- A command with a blank is not what is copied: it is too long. -/
theorem oneWord_of_copied (line : StatLine)
    (h : (if line.word = [] then [] else line.word.dropLast) = line.comm) : line.OneWord := by
  intro c hc
  by_contra hblank
  have hshort : (line.comm.takeWhile fun c => !isSpace c).length ≠ line.comm.length := by
    intro heq
    have hall := (List.takeWhile_prefix fun c => !isSpace c).eq_of_length heq
    have hc' := List.takeWhile_eq_self_iff.1 hall c hc
    simp [hblank] at hc'
  have hword : line.word = line.comm.takeWhile fun c => !isSpace c := by
    rw [StatLine.word, List.takeWhile_append, if_neg hshort]
  have hle : line.word.length ≤ line.comm.length := by
    rw [hword]
    exact (List.takeWhile_prefix _).length_le
  have hpos : 0 < line.comm.length := List.length_pos_iff.2 line.comm_ne_nil
  have hlength := congrArg List.length h
  split_ifs at hlength
  · rw [List.length_nil] at hlength
    omega
  · rw [List.length_dropLast] at hlength
    omega

theorem exists_update (line : StatLine) (hreadable : (files (statfile pid)).readable = true)
    (hcontent : (files (statfile pid)).content = some line.text) (s : ProcStat) :
    ∃ s', update files pid s = some (true, s') ∧
      s'.commandString = (if line.word = [] then s.commandString else line.word.dropLast) ∧
      (line.OneWord → line.Fits →
        s'.taskState = line.state ∧ ∀ f, (s'.number f).val = line.number f) := by
  let s₁ : ProcStat := { s with
    euid := ((files (statfile pid)).owner.getD (-1, -1)).1
    egid := ((files (statfile pid)).owner.getD (-1, -1)).2 }
  have hupdate : update files pid s = (s₁.read line.text).map fun s => (true, s) := by
    simp only [update, hreadable, hcontent, if_true]
    rfl
  obtain ⟨s', hread, hcommand, hrest⟩ := exists_read line s₁
  exact ⟨s', by rw [hupdate, hread]; rfl, hcommand, hrest⟩

/-- What is recovered whatever the members were before is recovered from a line that has it. -/
theorem oneWord_fits_of_recovers (line : StatLine)
    (hreadable : (files (statfile pid)).readable = true)
    (hcontent : (files (statfile pid)).content = some line.text)
    (h : Recovers files pid line) : line.OneWord ∧ line.Fits := by
  obtain ⟨s', hs', hcommand, -⟩ := exists_update line hreadable hcontent zero
  obtain ⟨hcomm, -, hnumber⟩ := h zero s' hs'
  refine ⟨oneWord_of_copied line ?_, fun f => ?_⟩
  · rw [← hcomm, hcommand]
    rfl
  · rw [← hnumber f]
    exact (s'.number f).2

/-- **What `update` recovers.** On every line that the kernel can write, `update` returns true; the
members are what the line says, whatever they were before, if and only if the command has no blank
and each number fits into its member. -/
theorem recovers_iff (line : StatLine) (hreadable : (files (statfile pid)).readable = true)
    (hcontent : (files (statfile pid)).content = some line.text) :
    (∀ s, ∃ s', update files pid s = some (true, s')) ∧
      (Recovers files pid line ↔ line.OneWord ∧ line.Fits) := by
  refine ⟨fun s => ?_, oneWord_fits_of_recovers line hreadable hcontent, fun hok s s' hs' => ?_⟩
  · obtain ⟨s', hs', -⟩ := exists_update line hreadable hcontent s
    exact ⟨s', hs'⟩
  · obtain ⟨hone, hfits⟩ := hok
    obtain ⟨s₂, hs₂, hcommand, hrest⟩ := exists_update line hreadable hcontent s
    rw [hs'] at hs₂
    cases hs₂
    refine ⟨?_, hrest hone hfits⟩
    rw [hcommand, word_of_oneWord hone, if_neg (by simp), List.dropLast_concat]

/-- A sleeping process whose numbers are zero but for its time in user mode. -/
def sleeping (comm : Text) (hne : comm ≠ []) (hlength : comm.length ≤ 15)
    (hchars : ∀ c ∈ comm, c ≠ '\x00' ∧ c ≠ '\n') (utime : unsignedLong.Value) : StatLine where
  comm := comm
  state := 'S'
  number := Function.update (fun f => f.documented.zero) .utime utime
  further := []
  comm_ne_nil := hne
  length_comm := hlength
  comm_chars := hchars
  state_letter := rfl

theorem fits_sleeping {comm : Text} {hne : comm ≠ []} {hlength : comm.length ≤ 15}
    {hchars : ∀ c ∈ comm, c ≠ '\x00' ∧ c ≠ '\n'} {utime : unsignedLong.Value}
    (h : int.Contains utime) : (sleeping comm hne hlength hchars utime).Fits := by
  intro f
  by_cases hf : f = .utime
  · subst hf
    exact h
  · have hzero : (sleeping comm hne hlength hchars utime).number f = f.documented.zero :=
      Function.update_of_ne (β := fun f : Field => f.documented.Value) hf utime
        fun f => f.documented.zero
    rw [hzero]
    exact f.type.zero.2

/-- A system in which the file of each process has the line. -/
def serving (line : StatLine) : String → File := fun _ => ⟨true, some (0, 0), some line.text⟩

/-- The line of `init`, one second after the start. -/
def initLine : StatLine :=
  sleeping "init".toList (by decide) (by decide) (by simp)
    ⟨100, IntType.contains_unsigned.2 (by norm_num)⟩

theorem oneWord_init : ∀ c ∈ "init".toList, isSpace c = false := by simp [isSpace]

theorem recovers_iff_init : Recovers (serving initLine) 1 initLine :=
  (recovers_iff initLine rfl rfl).2.2
    ⟨oneWord_init, fits_sleeping (IntType.contains_signed.2 (by norm_num))⟩

/-- The line of a process whose command has a blank. -/
def blankLine : StatLine :=
  sleeping "tmux: server".toList (by decide) (by decide) (by simp) unsignedLong.zero

/-- The line of a process that has run for `2 ^ 31` units of time. -/
def lateLine : StatLine :=
  sleeping "init".toList (by decide) (by decide) (by simp)
    ⟨2 ^ 31, IntType.contains_unsigned.2 (by norm_num)⟩

/-- A command with a blank is cut, and a time that does not fit into an `int` is not stored. -/
theorem not_recovers_blank :
    (∃ s', update (serving blankLine) 1 zero = some (true, s') ∧
      blankLine.comm = "tmux: server".toList ∧ s'.commandString = "tmux".toList) ∧
    ¬ Recovers (serving blankLine) 1 blankLine ∧
    lateLine.OneWord ∧ ¬ Recovers (serving lateLine) 1 lateLine := by
  refine ⟨?_, fun h => ?_, oneWord_init, fun h => ?_⟩
  · have hreadable : (serving blankLine (statfile 1)).readable = true := rfl
    obtain ⟨s', hs', hcommand, -⟩ := exists_update blankLine hreadable rfl zero
    exact ⟨s', hs', rfl, hcommand⟩
  · have hone := (oneWord_fits_of_recovers blankLine rfl rfl h).1
    exact absurd (hone ' ' (by decide)) (by decide)
  · have hfits := (oneWord_fits_of_recovers lateLine rfl rfl h).2 .utime
    have hlt : (2 : ℤ) ^ 31 < 2 ^ 31 := (IntType.contains_signed.1 hfits).2
    exact lt_irrefl _ hlt

end ProcStat

end Naesala
