import Mathlib.Data.Finmap
import Mathlib.Data.List.DropRight

/-!
# `ConfParser`

The configuration of `configure/conf_parser.h`: options that map keys to values, read from a file
line by line. A `std::string` of the configuration is its list of bytes, and an exception is its
text. `load` writes what it reads to the map at once, so an exception leaves the lines before it
applied.

`boost::trim` and `isspace` are those of the classic locale. `boost::lexical_cast` is a parameter
of `get`, and the order in which the maps are iterated one of `operator<<`.
-/

namespace Naesala

/-- A `std::string`. -/
abbrev Text := List Char

/-- `item`, the keys and values of an option. -/
abbrev ConfParser.Item := Finmap fun _ : Text => Text

/-- `conf`, the options. -/
abbrev ConfParser.Conf := Finmap fun _ : Text => ConfParser.Item

structure ConfParser where
  loaded : Bool
  path : String
  conf : ConfParser.Conf

namespace ConfParser

/-- The constructor. -/
def construct (path : String) : ConfParser := ⟨false, path, ∅⟩

/-- `get`, with the `lexical_cast` to the type of the value. -/
def get {Value : Type} (lexicalCast : Text → Option Value) (s : ConfParser) (option key : Text) :
    Except String Value :=
  match s.conf.lookup option with
  | none => .error (s.path ++ "get|option[" ++ String.ofList option ++ "] dosen't exist!")
  | some item =>
    match item.lookup key with
    | none =>
      .error (s.path ++ "get|option[" ++ String.ofList option ++ "]|key(" ++ String.ofList key ++
        ") dosen't exist!")
    | some var =>
      match lexicalCast var with
      | some value => .ok value
      | none =>
        .error (s.path ++ "get|option[" ++ String.ofList option ++ "]|key(" ++ String.ofList key ++
          ")|value(" ++ String.ofList var ++ ") type dosen't match!")

/-- `get` with a default value. -/
def getOr {Value : Type} (lexicalCast : Text → Option Value) (s : ConfParser) (option key : Text)
    (defaultValue : Value) : Value :=
  match s.get lexicalCast option key with
  | .ok value => value
  | .error _ => defaultValue

/-- `_conf[option][key] = var`. -/
def assign (conf : Conf) (option key var : Text) : Conf :=
  conf.insert option (((conf.lookup option).getD ∅).insert key var)

/-- `set`, of a value that is a string. -/
def set (s : ConfParser) (option key var : Text) : ConfParser :=
  { s with conf := assign s.conf option key var }

/-! ## Lines -/

/-- `isspace`: the space, and the control characters from the tabulator to the carriage
return. -/
def isSpace (c : Char) : Bool := c = ' ' || (9 ≤ c.toNat && c.toNat ≤ 13)

/-- `boost::trim`. -/
def trim (s : Text) : Text := (s.dropWhile isSpace).rdropWhile isSpace

/-- What `getline` reads from a file, call after call. -/
def lines : Text → List Text
  | [] => []
  | c :: cs =>
    if c = '\n' then [] :: lines cs
    else
      match lines cs with
      | [] => [[c]]
      | l :: ls => (c :: l) :: ls

/-! ## `load` -/

/-- The variables of the loop of `load`. -/
structure Loading where
  curOption : Text
  conf : Conf

/-- The body of the loop of `load`, for one line. -/
def loadLine (path : String) (st : Loading) (line : Text) : Except String Loading :=
  let line := trim line
  if line = [] then .ok st
  else if line.head? = some '#' then .ok st
  else if line.head? = some '[' then
    if ']' ∉ line then .error (path ++ "|load|Format error in option!")
    else .ok { st with curOption := (line.drop 1).take (line.idxOf ']' - 1) }
  else
    match line.splitOn '=' with
    | [key, value] => .ok { st with conf := assign st.conf st.curOption (trim key) (trim value) }
    | _ =>
      .error (path ++ "|load|option[" ++ String.ofList st.curOption ++ "]|Format error in item!")

/-- The loop of `load`: what it has stored, and the exception that ends it. -/
def loadLines (path : String) : List Text → Loading → Loading × Option String
  | [], st => (st, none)
  | line :: rest, st =>
    match loadLine path st line with
    | .ok st => loadLines path rest st
    | .error e => (st, some e)

/-- `load`, from a file with the content `file` or from none: the parser after it, and the
exception. -/
def load (s : ConfParser) (file : Option Text) : ConfParser × Option String :=
  match file with
  | none => (s, some (s.path ++ "|load|Fail to open configure file!"))
  | some content =>
    match loadLines s.path (lines content) ⟨[], s.conf⟩ with
    | (st, none) => ({ s with loaded := true, conf := st.conf }, none)
    | (st, some e) => ({ s with conf := st.conf }, some e)

/-! ## `operator<<` -/

/-- An order in which the maps are iterated. -/
structure IterationOrder (conf : Conf) where
  options : List (Σ _ : Text, Item)
  pairs : Text → List (Σ _ : Text, Text)
  coe_options : (options : Multiset (Σ _ : Text, Item)) = conf.entries
  coe_pairs : ∀ option ∈ options,
    (pairs option.1 : Multiset (Σ _ : Text, Text)) = option.2.entries

/-- The first line. -/
def outputHeader (s : ConfParser) : Text :=
  ("Configure information (" ++ s.path ++ "): \n").toList

/-- An option and its keys and values. -/
def outputOption (option : Text) (pairs : List (Σ _ : Text, Text)) : Text :=
  '[' :: option ++ [']', '\n'] ++
    pairs.flatMap fun pair => pair.1 ++ [' ', '=', ' '] ++ pair.2 ++ ['\n']

/-- The lines after the first one. -/
def outputElements (s : ConfParser) (order : IterationOrder s.conf) : Text :=
  if s.conf = ∅ then "No elements.".toList
  else order.options.flatMap fun option => outputOption option.1 (order.pairs option.1)

/-- `operator<<`. -/
def output (s : ConfParser) (order : IterationOrder s.conf) : Text :=
  s.outputHeader ++ s.outputElements order

end ConfParser

end Naesala
