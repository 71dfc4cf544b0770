import Naesala.Library.Istream
import Naesala.Configure.ConfParser

/-!
# `ProcStat`

The statistics of a process of `common/proc_stat.h`, and how `update` reads them from
`/proc/<pid>/stat`. What the system says about a file is a `File`; the constructors of the structure
leave its members as they happen to be, so they are any values of their types.

`StatLine` is the content that the kernel writes: the columns up to `policy`, with the types that
proc(5) documents on a 64-bit system, and any columns after them.
-/

namespace Naesala

open Istream
open ConfParser (isSpace)

namespace ProcStat

/-- A member that is a number and read from the file. -/
inductive Field where
  | pid | ppid | pgid | sid | ttyNr | ttyPgrp | taskFlags | minFlt | cminFlt | majFlt | cmajFlt
  | utime | stime | cutime | cstime | priority | nice | numThreads | itRealValue | startTime
  | vsize | rss | rlim | startCode | endCode | startStack | kstkesp | kstkeip
  | pendingsig | blockSig | sigign | sigcatch | wchan | nswap | cnswap | exitSignal | taskCpu
  | taskRtPriority | taskPolicy
  deriving DecidableEq

/-- `int`. -/
def int : IntType := ⟨true, 32⟩

/-- `unsigned int`. -/
def unsignedInt : IntType := ⟨false, 32⟩

/-- `long`. -/
def long : IntType := ⟨true, 64⟩

/-- `unsigned long` and `unsigned long long`. -/
def unsignedLong : IntType := ⟨false, 64⟩

/-- The type of the member. -/
def Field.type : Field → IntType
  | .taskFlags | .minFlt | .cminFlt | .majFlt | .cmajFlt | .numThreads | .itRealValue => unsignedInt
  | .vsize | .rss | .rlim | .startCode | .endCode | .startStack | .kstkesp | .kstkeip | .wchan
  | .nswap => unsignedLong
  | _ => int

/-- `_POSIX_PATH_MAX`. -/
def posixPathMax : ℕ := 256

end ProcStat

open ProcStat

structure ProcStat where
  command : Text
  taskState : Char
  number : (f : Field) → f.type.Value
  euid : UInt32
  egid : UInt32
  length_command : command.length = posixPathMax

namespace ProcStat

/-- `command`, as a string. -/
def commandString (s : ProcStat) : Text := s.command.takeWhile fun c => c ≠ '\x00'

def set (s : ProcStat) (f : Field) (n : f.type.Value) : ProcStat :=
  { s with number := Function.update s.number f n }

/-! ## `update` -/

/-- The order in which the numbers after `task_state` are read. -/
def extracted : List Field :=
  [.ppid, .pgid, .sid, .ttyNr, .ttyPgrp, .taskFlags, .minFlt, .cminFlt, .majFlt, .cmajFlt, .utime,
    .stime, .cutime, .cstime, .priority, .nice, .numThreads, .itRealValue, .startTime, .vsize, .rss,
    .rlim, .startCode, .endCode, .startStack, .kstkesp, .kstkeip, .pendingsig, .blockSig, .sigign,
    .sigcatch, .wchan, .nswap, .cnswap, .exitSignal, .taskCpu, .taskRtPriority, .taskPolicy]

/-- `memcpy(command, bytes, size)`, within the array. -/
def copy (s : ProcStat) (bytes : Text) : Option ProcStat :=
  if h : bytes.length ≤ posixPathMax then
    some { s with
      command := bytes ++ s.command.drop bytes.length
      length_command := by
        rw [List.length_append, List.length_drop, s.length_command]
        omega }
  else none

/-- Copy the word without its first and its last character, and the terminating zero. `substr`
throws if the word is empty. If it has one character, then the number of bytes to copy is zero. -/
def copyCommand (s : ProcStat) (temp : Text) : Option ProcStat :=
  if temp = [] then none
  else s.copy ((((temp.drop 1).take (temp.length - 2)) ++ ['\x00']).take (temp.length - 1))

/-- `in >> f` for each of the members. -/
def readFields : List Field → Istream → ProcStat → ProcStat
  | [], _, s => s
  | f :: fs, stream, s =>
    let read := readInt isSpace f.type stream (s.number f)
    readFields fs read.1 (s.set f read.2)

/-- The extractions from the file. -/
def read (content : Text) (s : ProcStat) : Option ProcStat :=
  let pid := readInt isSpace int ⟨content, false⟩ (s.number .pid)
  let temp := readWord isSpace pid.1 []
  ((s.set .pid pid.2).copyCommand temp.2).map fun s =>
    let taskState := readChar isSpace temp.1 s.taskState
    readFields extracted taskState.1 { s with taskState := taskState.2 }

/-- What `access`, `stat` and the `ifstream` say about a path. -/
structure File where
  readable : Bool
  /-- The user and the group. -/
  owner : Option (UInt32 × UInt32)
  content : Option Text

/-- `statfile`. -/
def statfile (pid : Int32) : String := "/proc/" ++ toString pid.toUInt32.toNat ++ "/stat"

/-- `update`, which may throw. -/
def update (files : String → File) (pid : Int32) (s : ProcStat) : Option (Bool × ProcStat) :=
  let file := files (statfile pid)
  if file.readable then
    let owner := file.owner.getD (-1, -1)
    let s := { s with euid := owner.1, egid := owner.2 }
    match file.content with
    | none => some (false, s)
    | some content => (s.read content).map fun s => (true, s)
  else some (false, s)

/-! ## The content of the file -/

/-- The type that proc(5) documents. -/
def Field.documented : Field → IntType
  | .taskFlags | .taskRtPriority | .taskPolicy => unsignedInt
  | .cutime | .cstime | .priority | .nice | .numThreads | .itRealValue | .rss => long
  | .minFlt | .cminFlt | .majFlt | .cmajFlt | .utime | .stime | .startTime | .vsize | .rlim
  | .startCode | .endCode | .startStack | .kstkesp | .kstkeip | .pendingsig | .blockSig | .sigign
  | .sigcatch | .wchan | .nswap | .cnswap => unsignedLong
  | _ => int

/-- What the kernel writes about a process. The columns from `ppid` to `policy` are the numbers that
`update` reads after `task_state`. -/
structure StatLine where
  comm : Text
  state : Char
  number : (f : Field) → f.documented.Value
  /-- The columns after `policy`. -/
  further : List ℤ
  comm_ne_nil : comm ≠ []
  length_comm : comm.length ≤ 15
  comm_chars : ∀ c ∈ comm, c ≠ '\x00' ∧ c ≠ '\n'
  state_letter : state.isAlpha = true

/-- A column of a number. -/
def column (n : ℤ) : Text := ' ' :: decimal n

def StatLine.text (line : StatLine) : Text :=
  decimal (line.number .pid) ++ [' ', '('] ++ line.comm ++ [')', ' ', line.state] ++
    (extracted.flatMap fun f => column (line.number f)) ++ line.further.flatMap column ++ ['\n']

end ProcStat

end Naesala
