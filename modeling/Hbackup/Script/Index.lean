import Hbackup.Lib.Separated
import Hbackup.Utils.Hex

/-!
# Index files in the `hbackup` script

`parse_details` and `parse_index` of the script, with what they use of the Python library.  A
problem in an index is a warning, and the warnings end the script when the index has been read.
-/

namespace Hbackup.Script

open Separated

/-! ### The Python library -/

/-- The lines of a file, each with its newline if it has one. -/
def linesOf : Bytes → List Bytes
  | [] => []
  | c :: r =>
    if c = 10 then [10] :: linesOf r
    else
      match linesOf r with
      | [] => [[c]]
      | line :: lines => (c :: line) :: lines

/-- What `unquote` makes of what is behind a `%`. -/
def unquoteItem (item : Bytes) : Bytes :=
  match item with
  | x :: y :: rest =>
    match hexdigit x, hexdigit y with
    | .ok a, .ok b => UInt8.ofNat (a * 16 + b) :: rest
    | _, _ => 37 :: item
  | _ => 37 :: item

/-- `unquote`. -/
def unquote (s : Bytes) : Bytes :=
  match s.splitOn 37 with
  | [] => []
  | first :: items => first ++ items.flatMap unquoteItem

/-- `s.replace('+', ' ')`. -/
def plusToSpace (s : Bytes) : Bytes := s.map fun c => if c = 43 then 32 else c

/-- What ends the script before its end. -/
inductive PyError
  | valueError
  | keyError
  | ioError
  | systemExit (msg : String)
deriving DecidableEq, Repr

/-- One part of `parse_qs`, with strict parsing. -/
def parsePart (part : Bytes) : Except PyError (Bytes × Bytes) :=
  match cutAt 61 part with
  | none => .error .valueError
  | some (name, value) => .ok (unquote (plusToSpace name), unquote (plusToSpace value))

/-- `parse_qs(qs, True, True)`, as the list of the pairs: the values of a key are those of its pairs, in
their order. -/
def parse_qs (qs : Bytes) : Except PyError (List (Bytes × Bytes)) :=
  ((qs.splitOn 38).flatMap fun part => part.splitOn 59).mapM parsePart

/-- `os.path.dirname`. -/
def dirname (path : Bytes) : Bytes :=
  let head := (path.reverse.dropWhile (· ≠ 47)).reverse
  if head.all (· = 47) then head else (head.reverse.dropWhile (· = 47)).reverse

/-- `os.path.basename`. -/
def basename (path : Bytes) : Bytes := (path.reverse.takeWhile (· ≠ 47)).reverse

/-! ### The script -/

/-- The global variables. -/
structure Globals where
  warnings : Nat := 0
  /-- `files`, of which a key is in no more than one pair. -/
  files : List (Bytes × Bytes) := []
  stdout : List Bytes := []

abbrev Py := EStateM PyError Globals

/-- `warn`. -/
def warn : Py Unit := modify fun g => { g with warnings := g.warnings + 1 }

/-- `fatal`. -/
def fatal {α : Type} (msg : String) : Py α := throw (.systemExit msg)

/-- The value of a key is the first of its values. -/
abbrev Pairs := List (Bytes × Bytes)

/-- `parse_details`. -/
def parse_details (line : Bytes) : Py (Option Pairs) := do
  if line.getLast? ≠ some 10 then
    warn
    return none
  else
    -- keep blanks and raise on error
    match parse_qs line.dropLast with
    | .error e => throw e
    | .ok details => return some details

/-- The local variables of `parse_index`. -/
structure Parsing where
  seen_end : Bool := false
  directory : Option Bytes := none

/-- `"%s/%s" % (directory, name)`. -/
def inDirectory (directory : Option Bytes) (name : Bytes) : Bytes :=
  directory.getD (lit "None") ++ lit "/" ++ name

/-- `details['name'] = name`. -/
def setName (details : Pairs) (name : Bytes) : Pairs :=
  (lit "name", name) :: details.filter (·.1 ≠ lit "name")

/-- What becomes of the details of a line: the directory for the next one. -/
def handle (handler : Pairs → Py Unit) (directory : Option Bytes) (details : Pairs) :
    Py (Option Bytes) := do
  match details.lookup (lit "name") with
  | none => throw .keyError
  | some name =>
    if name.take 2 = lit "./" then
      -- relative to the directory containing the previous filename
      handler (setName details (inDirectory directory (name.drop 2)))
      return directory
    else
      handler details
      return some (dirname name)

/-- The loop over the lines. -/
def parseLines (handler : Pairs → Py Unit) : List Bytes → Parsing → Py Parsing
  | [], p => return p
  | line :: rest, p => do
    if line = lit "[end]\n" then parseLines handler rest { p with seen_end := true }
    else if p.seen_end then
      warn
      return p
    else
      match ← parse_details line with
      | none => parseLines handler rest p
      | some details =>
        let directory ← handle handler p.directory details
        parseLines handler rest { p with directory }

/-- `parse_index`, of an index with this text. -/
def parse_index (handler : Pairs → Py Unit) (text : Bytes) : Py Unit := do
  let p ← parseLines handler (linesOf text) {}
  if !p.seen_end then warn
  if 0 < (← get).warnings then fatal "%d problems found"

end Hbackup.Script
