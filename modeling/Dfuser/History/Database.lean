import Mathlib.Data.Char
import Mathlib.Data.Finset.Sort
import Mathlib.Data.List.Lex
import Mathlib.Order.Lex
import Dfuser.Lib.Dict
import Dfuser.Lib.Text

/-!
# The command history database

`scripts/history_manager.py`: lines of shell history are filed under the command
they run, with a count, the distinct lines seen and whether the last of them was
run under `sudo`.  The database lives in memory with its examples as Python sets
and on disk, as JSON, with its examples as lists; `writeDatabase` turns the one
into the other *in place*, so a live database can hold both forms and the forms
are part of the model.

A line is the text Python's file iteration yields, its newline included.  An
exception is a value of `PyError`.

## Main definitions

* `getCommandFromLine`, `processLine`, `processHistoryFile` — filing lines.
* `readDatabase`, `writeDatabase` — the two sides of persistence.
* `main` — one run of the program.

## Main results

* `processLine_eq` — `processLine` reads a line (`lineKey`) and then records it.
-/

namespace Dfuser
namespace History

/-! ### Python values -/

/-- The exceptions the program can raise. -/
inductive PyError
  /-- Indexing past the end of a list. -/
  | indexError
  /-- Reading a missing key of a dictionary. -/
  | keyError
  /-- Calling a method the object does not have. -/
  | attributeError
  deriving DecidableEq, Repr

/-- The white space of `str.split`, by code point. -/
def isSpace (c : Char) : Bool :=
  let n := c.toNat
  (9 ≤ n && n ≤ 13) || (28 ≤ n && n ≤ 32) || n == 0x85 || n == 0xA0 || n == 0x1680 ||
    (0x2000 ≤ n && n ≤ 0x200A) || n == 0x2028 || n == 0x2029 || n == 0x202F || n == 0x205F ||
    n == 0x3000

/-- `s.split()`. -/
def split (s : Str) : List Str := fields isSpace s

/-- The objects `process_line` looks up in the ignore list: it looks up the pair
`get_command_from_line` returns, in a list of strings. -/
inductive PyObject
  | str (s : Str)
  | tuple (command : Str) (asSudo : Bool)
  deriving DecidableEq, Repr

/-- A Python set of strings, or the list it becomes when the database is saved. -/
inductive Examples
  | set (s : Finset Str)
  | list (l : List Str)
  deriving DecidableEq

/-- `x.add(line)`: lists have no such method. -/
def Examples.add : Examples → Str → Except PyError Examples
  | .set s, line => .ok (.set (insert line s))
  | .list _, _ => .error .attributeError

/-- The strings held, in either form. -/
def Examples.toFinset : Examples → Finset Str
  | .set s => s
  | .list l => l.toFinset

/-- The order in which a Python process iterates over its sets.  It depends on the
hash seed of the process; all that is known is that it visits every element. -/
structure SetOrder where
  /-- `list(s)`. -/
  enum : Finset Str → List Str
  toFinset_enum : ∀ s, (enum s).toFinset = s

/-- A process that happens to iterate in sorted order. -/
def SetOrder.sorted : SetOrder := ⟨fun s => s.sort, fun s => Finset.sort_toFinset s _⟩

/-- `list(x)`. -/
def Examples.toList (o : SetOrder) : Examples → List Str
  | .set s => o.enum s
  | .list l => l

/-! ### Databases -/

/-- What is known about one command, in memory. -/
structure Record where
  count : ℤ
  listOfExamples : Examples
  runAsSudo : Bool
  deriving DecidableEq

/-- What is known about one command, on disk. -/
structure CommandData where
  count : ℤ
  listOfExamples : List Str
  runAsSudo : Bool
  deriving DecidableEq

/-- The database in memory. -/
abbrev Database := Dict Str Record

/-- The JSON object in the database file. -/
abbrev DatabaseFile := Dict Str CommandData

/-- `read_database`: the database, and the file, which is created when it does not
exist. -/
def readDatabase : Option DatabaseFile → Database × DatabaseFile
  | none => (Dict.empty, Dict.empty)
  | some f => (f.mapVal fun d => ⟨d.count, .set d.listOfExamples.toFinset, d.runAsSudo⟩, f)

/-- `write_database`: the examples become lists in the live database, which is
then what the file holds. -/
def writeDatabase (o : SetOrder) (db : Database) : Database × DatabaseFile :=
  (db.mapVal fun r => { r with listOfExamples := .list (r.listOfExamples.toList o) },
    db.mapVal fun r => ⟨r.count, r.listOfExamples.toList o, r.runAsSudo⟩)

/-! ### Processing -/

/-- `COMMON_COMMAND_IGNORE_LIST`. -/
def commonCommandIgnoreList : List Str :=
  ["ls".toList, "cd".toList, "pwd".toList, "echo".toList, "clear".toList, "exit".toList,
    "history".toList, "cat".toList]

/-- `line.startswith('sudo')`. -/
def startsWithSudo (line : Str) : Bool := "sudo".toList.isPrefixOf line

/-- `get_command_from_line`: the command and whether it runs under `sudo`.  A line
with no words has no first word to return. -/
def getCommandFromLine (line : Str) : Except PyError (Str × Bool) :=
  match line with
  | '!' :: rest => .ok (rest, false)
  | _ =>
    -- only the first four characters are looked at: `sudoedit f` runs `f`, under `sudo`
    match startsWithSudo line, split line with
    | true, _ :: command :: _ => .ok (command, true)
    | asSudo, command :: _ => .ok (command, asSudo)
    | _, [] => .error .indexError

/-- The test `self.get_command_from_line(line) in COMMON_COMMAND_IGNORE_LIST`. -/
def inIgnoreList (result : Str × Bool) : Bool :=
  PyObject.tuple result.1 result.2 ∈ commonCommandIgnoreList.map PyObject.str

/-- The line is commented out or continues a command of several lines. -/
def isCommentOrContinuation (line : Str) : Bool :=
  ['#'].isPrefixOf line || [' '].isPrefixOf line

/-- `add_command_to_database`. -/
def addCommandToDatabase (db : Database) (command : Str) : Database :=
  if command ∈ db.keys then db else db.set command ⟨0, .set ∅, false⟩

/-- `process_line`: the updated database and whether the line was recorded. -/
def processLine (db : Database) (line : Str) : Except PyError (Database × Bool) := do
  let result ← getCommandFromLine line
  -- the line is read before it is looked at, so a blank one fails here
  if inIgnoreList result then
    return (db, false)
  if isCommentOrContinuation line then
    return (db, false)
  -- the command is always a string here, so the source's test for `None` never fires
  let (command, asSudo) ← getCommandFromLine line
  let db := addCommandToDatabase db command
  match db.get? command with
  | none => throw .keyError
  | some r =>
    let examples ← r.listOfExamples.add line
    return (db.set command ⟨r.count + 1, examples, asSudo⟩, true)

/-- The statistics `process_history_file` returns. -/
structure HistoryStats where
  totalCommands : ℕ
  linesProcessed : ℕ
  deriving DecidableEq, Repr

/-- The loop of `process_history_file`, from a database and a number of lines
recorded so far. -/
def processLines : Database × ℕ → List Str → Except PyError (Database × ℕ)
  | st, [] => .ok st
  | (db, n), line :: lines => do
    let (db, recorded) ← processLine db line
    processLines (db, if recorded then n + 1 else n) lines

/-- `process_history_file`, on the lines of the file. -/
def processHistoryFile (db : Database) (lines : List Str) :
    Except PyError (Database × HistoryStats) := do
  let (db, n) ← processLines (db, 0) lines
  return (db, ⟨db.keys.length, n⟩)

/-- The loop of `main` over the history files. -/
def processFiles : Database → List (List Str) → Except PyError (Database × List HistoryStats)
  | db, [] => .ok (db, [])
  | db, lines :: files => do
    let (db, stats) ← processHistoryFile db lines
    let (db, rest) ← processFiles db files
    return (db, stats :: rest)

/-- `main`: one run of the program on a database file and the history files named
on the command line; the result is the database file it leaves. -/
def main (o : SetOrder) (file : Option DatabaseFile) (files : List (List Str)) :
    Except PyError DatabaseFile := do
  let (db, _) ← processFiles (readDatabase file).1 files
  return (writeDatabase o db).2

/-! ### What a line does -/

/-- The command a line is recorded under, with its `sudo` flag; `none` for a line
that is skipped. -/
def lineKey (line : Str) : Except PyError (Option (Str × Bool)) :=
  (getCommandFromLine line).map fun result =>
    if isCommentOrContinuation line then none else some result

/-- The record of a command after one more of its lines. -/
def Record.record (r : Option Record) (line : Str) (asSudo : Bool) : Except PyError Record :=
  let r := r.getD ⟨0, .set ∅, false⟩
  (r.listOfExamples.add line).map fun examples => ⟨r.count + 1, examples, asSudo⟩

/-- A pair is never equal to a string, so the ignore list ignores nothing. -/
theorem inIgnoreList_eq_false (result : Str × Bool) : inIgnoreList result = false := by
  simp [inIgnoreList]

/-- **Recording is one assignment.**  `processLine` reads the line, and then either
leaves the database alone or updates the record of the one command it names. -/
theorem processLine_eq (db : Database) (line : Str) :
    processLine db line =
      (lineKey line).bind fun key =>
        match key with
        | none => .ok (db, false)
        | some (command, asSudo) =>
          (Record.record (db.get? command) line asSudo).map fun r => (db.set command r, true) := by
  unfold processLine lineKey
  cases hcmd : getCommandFromLine line with
  | error e => rfl
  | ok result =>
    obtain ⟨command, asSudo⟩ := result
    simp only [Except.map, Except.bind, bind, inIgnoreList_eq_false, Bool.false_eq_true, if_false]
    cases hskip : isCommentOrContinuation line with
    | true => rfl
    | false =>
      simp only [Bool.false_eq_true, if_false]
      -- a new entry is created before it is read back, so the key is never missing
      by_cases hmem : command ∈ db.keys
      · obtain ⟨r, hr⟩ := (Dict.mem_keys_iff db command).mp hmem
        simp only [addCommandToDatabase, hmem, if_true, hr, Record.record, Option.getD_some]
        cases r.listOfExamples.add line <;> rfl
      · have hnone : db.get? command = none := (Dict.get?_eq_none_iff db command).mpr hmem
        simp only [addCommandToDatabase, hmem, if_false, hnone, Dict.get?_set_self, Dict.set_set]
        rfl

end History
end Dfuser
