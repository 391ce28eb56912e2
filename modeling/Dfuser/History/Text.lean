import Dfuser.History.Shapes
import Dfuser.Lib.JsonDump

/-!
# The database file as a text

What `read_database` and `write_database` really exchange with the disk is the text of a JSON
object.  This module puts that text under the database of `Database.lean` and follows the file
through any number of runs, those that fail included: a run fails when a history file is not
there, or when a line of one is blank.

A file that no run wrote is read when it has the shape of one that a run writes.  What the
program makes of other texts is left out.

## Main definitions

* `dumpDatabase`, `loadDatabase` — the text of a database, and the database of a text.
* `Run`, `Run.exec` — one run of the program on the file, and how it ends.
* `linesSaved` — the lines of the runs that complete.

## Main results

* `loads_saved` — **a database comes back from the text that is saved.**
* `runs_tally` — **after any runs the file tallies the lines of those that completed.**
-/

namespace Dfuser
namespace History

/-! ### Texts -/

/-- The record of a command in the file. -/
def CommandData.toJson (d : CommandData) : Json :=
  .object [("count".toList, .ofInt d.count),
    ("list_of_examples".toList, .array (d.listOfExamples.map .string)),
    ("run_as_sudo".toList, .bool d.runAsSudo)]

/-- `json.dump(self.database, f)`. -/
def dumpDatabase (f : DatabaseFile) : Str :=
  Json.dump none (.object (f.entries.map fun e => (e.1, e.2.toJson)))

/-- The record that a member of the file holds. -/
def CommandData.ofJson : Json → Option CommandData
  | .object [(k₁, v₁), (k₂, v₂), (k₃, v₃)] => do
    guard (k₁ = "count".toList ∧ k₂ = "list_of_examples".toList ∧ k₃ = "run_as_sudo".toList)
    let count ← v₁.int?
    let listOfExamples ← v₂.strings?
    let runAsSudo ← v₃.bool?
    return ⟨count, listOfExamples, runAsSudo⟩
  | _ => none

/-- The records that the members of the file hold. -/
def databaseOfJson : Json → Option DatabaseFile
  | .object members =>
    (members.mapM fun m => (CommandData.ofJson m.2).map (Prod.mk m.1)).map Dict.ofPairs
  | _ => none

/-- `json.load(f)`. -/
def loadDatabase (text : Str) : Option DatabaseFile := (Json.parse text).bind databaseOfJson

/-! ### Runs -/

/-- The exceptions that end a run. -/
inductive RunError
  /-- The database file is not one that a run writes. -/
  | notADatabase
  /-- There is no such history file. -/
  | fileNotFound
  /-- A line cannot be processed. -/
  | line (e : PyError)
  deriving DecidableEq, Repr

/-- `read_database`, with the text that the file holds from then on. -/
def readDatabaseText : Option Str → Except RunError (Database × Str)
  | none => .ok ((readDatabase none).1, dumpDatabase (readDatabase none).2)
  | some text =>
    match loadDatabase text with
    | none => .error .notADatabase
    | some f => .ok ((readDatabase (some f)).1, text)

/-- `write_database`: the text that is written. -/
def writeDatabaseText (o : SetOrder) (db : Database) : Str := dumpDatabase (writeDatabase o db).2

/-- The loop of `main` over the history files, of which some may not be there. -/
def processHistoryFiles : Database → List (Option (List Str)) → Except RunError Database
  | db, [] => .ok db
  | _, none :: _ => .error .fileNotFound
  | db, some lines :: files =>
    match processHistoryFile db lines with
    | .error e => .error (.line e)
    | .ok (db, _) => processHistoryFiles db files

/-- One run of the program: the order of its sets, and the lines of the history files that it
is given. -/
structure Run where
  order : SetOrder
  files : List (Option (List Str))

/-- `main`: how the run ends, and the database file it leaves. -/
def Run.exec (r : Run) (file : Option Str) : Except RunError Unit × Option Str :=
  match readDatabaseText file with
  | .error e => (.error e, file)
  | .ok (db, text) =>
    match processHistoryFiles db r.files with
    | .error e => (.error e, some text)
    | .ok db => (.ok (), some (writeDatabaseText r.order db))

/-- The file after some runs. -/
def afterRuns (file : Option Str) (runs : List Run) : Option Str :=
  runs.foldl (fun file r => (r.exec file).2) file

/-- What the file stands for; no file stands for no commands. -/
def stored : Option Str → Option DatabaseFile
  | none => some Dict.empty
  | some text => loadDatabase text

/-- Every history file is there, and none of its lines is blank. -/
def Run.Completes (r : Run) : Prop :=
  ∀ file ∈ r.files, ∃ lines ∈ file, ∀ line ∈ lines, ∃ c ∈ line, isSpace c = false

instance (r : Run) : Decidable r.Completes :=
  decidable_of_iff (r.files.all fun file => file.any fun lines =>
      lines.all fun line => line.any fun c => !isSpace c) <| by
    simp [Run.Completes, List.all_eq_true, Option.any_eq_true]

/-- The lines of the history files. -/
def Run.lines (r : Run) : List Str := r.files.flatMap (·.getD [])

/-- The lines of the runs that complete. -/
def linesSaved (runs : List Run) : List Str := (runs.filter (·.Completes)).flatMap Run.lines

/-! ### A text and its database -/

theorem CommandData.ofJson_toJson (d : CommandData) : ofJson d.toJson = some d := by
  rw [toJson, ofJson, Json.int?_ofInt, Json.strings?_map]
  rfl

theorem CommandData.integers_toJson (d : CommandData) : d.toJson.Integers := by
  have hexamples : Json.AllIntegers (d.listOfExamples.map .string) := by
    rw [Json.allIntegers_iff]
    intro v hv
    obtain ⟨s, -, rfl⟩ := List.mem_map.mp hv
    trivial
  exact ⟨Json.integers_ofInt d.count, hexamples, trivial, trivial⟩

/-- A database is read back from its text. -/
theorem loadDatabase_dumpDatabase (f : DatabaseFile) : loadDatabase (dumpDatabase f) = some f := by
  have hmembers : (Json.object (f.entries.map fun e => (e.1, e.2.toJson))).Integers := by
    show Json.MembersIntegers _
    rw [Json.membersIntegers_iff]
    intro m hm
    obtain ⟨e, -, rfl⟩ := List.mem_map.mp hm
    exact e.2.integers_toJson
  have hrecords : (f.entries.map fun e => (e.1, e.2.toJson)).mapM
      (fun m => (CommandData.ofJson m.2).map (Prod.mk m.1)) = some f.entries := by
    rw [List.mapM_map]
    induction f.entries with
    | nil => rfl
    | cons e l ih =>
      rw [List.mapM_cons, ih, Function.comp_apply, CommandData.ofJson_toJson]
      rfl
  rw [loadDatabase, dumpDatabase, Json.parse_dump none hmembers, Option.bind_some, databaseOfJson,
    hrecords, Option.map_some, Dict.ofPairs_entries]

/-- **A database comes back from the text that is saved**, whatever characters its commands
and examples have: a new process that reads the text of a database of sets has that database. -/
theorem loads_saved (o : SetOrder) {db : Database} (h : AllSets db) :
    readDatabaseText (some (writeDatabaseText o db)) = .ok (db, writeDatabaseText o db) := by
  have hreload : (readDatabase (some (writeDatabase o db).2)).1 = db :=
    readDatabase_writeDatabase o h
  rw [readDatabaseText, writeDatabaseText, loadDatabase_dumpDatabase]
  show Except.ok ((readDatabase (some (writeDatabase o db).2)).1, _) = _
  rw [hreload]

theorem loads_saved_make :
    readDatabaseText (some (writeDatabaseText .sorted (record Dict.empty "make \"é\"\n".toList))) =
      .ok (record Dict.empty "make \"é\"\n".toList,
        writeDatabaseText .sorted (record Dict.empty "make \"é\"\n".toList)) :=
  loads_saved .sorted (allSets_record allSets_empty _)

/-! ### What runs leave -/

theorem processHistoryFile_of_readable {db : Database} (hdb : AllSets db) {lines : List Str}
    (h : ∀ line ∈ lines, Readable line) :
    ∃ stats, processHistoryFile db lines = .ok (lines.foldl record db, stats) := by
  rw [processHistoryFile, processLines_of_readable hdb 0 h]
  exact ⟨_, rfl⟩

theorem processHistoryFile_of_not_readable {db : Database} (hdb : AllSets db) {lines : List Str}
    (h : ¬ ∀ line ∈ lines, Readable line) : ∃ e, processHistoryFile db lines = .error e := by
  rw [processHistoryFile, processLines_of_not_readable hdb 0 h]
  exact ⟨_, rfl⟩

/-- The loop over the history files gets to its end, or it fails and nothing is saved. -/
theorem processHistoryFiles_cases {db : Database} (hdb : AllSets db)
    (files : List (Option (List Str))) :
    ((∀ file ∈ files, ∃ lines ∈ file, ∀ line ∈ lines, Readable line) ∧
      processHistoryFiles db files = .ok ((files.flatMap (·.getD [])).foldl record db)) ∨
    ((¬ ∀ file ∈ files, ∃ lines ∈ file, ∀ line ∈ lines, Readable line) ∧
      ∃ e, processHistoryFiles db files = .error e) := by
  induction files generalizing db with
  | nil => exact .inl ⟨by simp, rfl⟩
  | cons file files ih =>
    cases file with
    | none => exact .inr ⟨by simp, _, rfl⟩
    | some lines =>
      rw [processHistoryFiles]
      by_cases hlines : ∀ line ∈ lines, Readable line
      · obtain ⟨stats, hfile⟩ := processHistoryFile_of_readable hdb hlines
        rw [hfile]
        rcases ih (allSets_foldl_record hdb lines) with ⟨hrest, hok⟩ | ⟨hrest, e, herror⟩
        · refine .inl ⟨List.forall_mem_cons.mpr ⟨⟨lines, rfl, hlines⟩, hrest⟩, ?_⟩
          rw [List.flatMap_cons, List.foldl_append]
          exact hok
        · exact .inr ⟨fun h => hrest (List.forall_mem_cons.mp h).2, e, herror⟩
      · obtain ⟨e, hfile⟩ := processHistoryFile_of_not_readable hdb hlines
        rw [hfile]
        refine .inr ⟨fun h => hlines ?_, _, rfl⟩
        obtain ⟨lines', hmem, hread⟩ := (List.forall_mem_cons.mp h).1
        cases hmem
        exact hread

theorem Run.completes_iff_readable (r : Run) :
    r.Completes ↔ ∀ file ∈ r.files, ∃ lines ∈ file, ∀ line ∈ lines, Readable line := by
  simp only [Run.Completes, readable_iff]

/-- Whether it is there or not, a file of this program is read as what it stands for, and goes
on standing for it. -/
theorem readDatabaseText_of_stored {file : Option Str} {f : DatabaseFile}
    (h : stored file = some f) :
    ∃ text, readDatabaseText file = .ok ((readDatabase (some f)).1, text) ∧
      stored (some text) = some f := by
  cases file with
  | none =>
    cases h
    exact ⟨_, rfl, loadDatabase_dumpDatabase _⟩
  | some text =>
    have hload : loadDatabase text = some f := h
    refine ⟨text, ?_, h⟩
    rw [readDatabaseText, hload]

/-- **What one run does**: it completes and adds its lines, or it fails and the file stands for
what it stood for. -/
theorem Run.exec_cases (r : Run) {file : Option Str} {f : DatabaseFile} (h : stored file = some f) :
    (r.Completes ∧ (r.exec file).1 = .ok () ∧
      stored (r.exec file).2 =
        some (writeDatabase r.order (r.lines.foldl record (readDatabase (some f)).1)).2) ∨
    (¬ r.Completes ∧ (∃ e, (r.exec file).1 = .error e) ∧ stored (r.exec file).2 = some f) := by
  obtain ⟨text, hread, htext⟩ := readDatabaseText_of_stored h
  rw [r.completes_iff_readable, Run.exec, hread]
  rcases processHistoryFiles_cases (allSets_readDatabase (some f)) r.files with
    ⟨hfiles, hok⟩ | ⟨hfiles, e, herror⟩
  · refine .inl ⟨hfiles, ?_⟩
    dsimp only
    rw [hok]
    exact ⟨rfl, loadDatabase_dumpDatabase _⟩
  · refine .inr ⟨hfiles, ?_⟩
    dsimp only
    rw [herror]
    exact ⟨⟨e, rfl⟩, htext⟩

theorem view_readDatabase (f : DatabaseFile) (c : Str) :
    view (readDatabase (some f)).1 c = fileView f c := by
  simp only [view, readDatabase, Dict.get?_mapVal, fileView, Option.map_map]
  rfl

/-- The lines of a run, tallied for one command. -/
theorem fileView_saved (o : SetOrder) (f : DatabaseFile) (lines : List Str) (c : Str) :
    fileView (writeDatabase o (lines.foldl record (readDatabase (some f)).1)).2 c =
      Entry.extend (fileView f c) (linesOf c lines) := by
  rw [fileView_writeDatabase, view_foldl_record, view_readDatabase]

/-- **After any runs the file tallies the lines of those that completed.**  From a file that
holds a database, or from none, any runs leave a file that holds one: it says of every command
what the lines of the runs that completed make of what it said before.  A run that fails
leaves no trace, and no run fails because of those before it. -/
theorem runs_tally {file : Option Str} {f : DatabaseFile} (h : stored file = some f)
    (runs : List Run) :
    ∃ f', stored (afterRuns file runs) = some f' ∧
      (∀ c, fileView f' c = Entry.extend (fileView f c) (linesOf c (linesSaved runs))) ∧
      ∀ r : Run, (r.exec (afterRuns file runs)).1 = .ok () ↔ r.Completes := by
  have hruns : ∃ f', stored (afterRuns file runs) = some f' ∧
      ∀ c, fileView f' c = Entry.extend (fileView f c) (linesOf c (linesSaved runs)) := by
    induction runs generalizing file f with
    | nil => exact ⟨f, h, fun c => rfl⟩
    | cons r runs ih =>
      rcases r.exec_cases h with ⟨hcomplete, -, hfile⟩ | ⟨hfail, -, hfile⟩
      · obtain ⟨f', hstored, hview⟩ := ih hfile
        refine ⟨f', hstored, fun c => ?_⟩
        have hsaved : linesSaved (r :: runs) = r.lines ++ linesSaved runs := by
          simp [linesSaved, hcomplete]
        rw [hview, fileView_saved, hsaved, linesOf_append, Entry.extend_append]
      · obtain ⟨f', hstored, hview⟩ := ih hfile
        have hsaved : linesSaved (r :: runs) = linesSaved runs := by simp [linesSaved, hfail]
        exact ⟨f', hstored, fun c => by rw [hview, hsaved]⟩
  obtain ⟨f', hstored, hview⟩ := hruns
  refine ⟨f', hstored, hview, fun r => ?_⟩
  rcases r.exec_cases hstored with ⟨hcomplete, hok, -⟩ | ⟨hfail, ⟨e, herror⟩, -⟩
  · exact iff_of_true hok hcomplete
  · refine iff_of_false (fun hok => ?_) hfail
    rw [herror] at hok
    cases hok

theorem runs_tally_make :
    ∃ f', stored (afterRuns none [⟨.sorted, [some ["make\n".toList]]⟩, ⟨.sorted, [none]⟩]) =
        some f' ∧
      (∀ c, fileView f' c = Entry.extend none (linesOf c ["make\n".toList])) ∧
      ∀ r : Run, (r.exec (afterRuns none
        [⟨.sorted, [some ["make\n".toList]]⟩, ⟨.sorted, [none]⟩])).1 = .ok () ↔ r.Completes :=
  runs_tally (f := Dict.empty) rfl _

end History
end Dfuser
