import Mathlib.Data.Finset.Card
import Dfuser.History.Database

/-!
# The database as a tally of its lines

What the database says about a command is a function of the lines recorded under
it: how many there are, which they are, and the `sudo` flag of the *last* of them.
`Entry.extend` is that function, and `view_foldl_record` says that processing
lines, in any number of files, computes it.  Counts and examples therefore do not
depend on the order of the lines; the flag does.

## Main definitions

* `Entry`, `view` — what a database says about a command.
* `keyOf`, `linesOf` — the lines recorded under a command.
* `Entry.extend` — an entry, and what more lines make of it.

## Main results

* `processFiles_of_readable`, `processFiles_of_not_readable` — a run over history
  files is one pass over all their lines, or fails.
* `view_foldl_record` — **processing computes the tally.**
* `sumBy_count_foldl_record` — the counts add up to the number of recorded lines.
-/

namespace Dfuser
namespace History

/-! ### Entries -/

/-- What a database says about a command, whichever form its examples are in. -/
@[ext]
structure Entry where
  count : ℤ
  examples : Finset Str
  runAsSudo : Bool
  deriving DecidableEq

/-- The entry a record in memory stands for. -/
def Record.entry (r : Record) : Entry := ⟨r.count, r.listOfExamples.toFinset, r.runAsSudo⟩

/-- The entry a record on disk stands for. -/
def CommandData.entry (d : CommandData) : Entry := ⟨d.count, d.listOfExamples.toFinset, d.runAsSudo⟩

/-- What the database says about command `c`. -/
def view (db : Database) (c : Str) : Option Entry := (db.get? c).map Record.entry

/-! ### The lines recorded under a command -/

/-- Reading the line raises no exception. -/
def Readable (line : Str) : Prop := ∃ key, lineKey line = .ok key

instance (line : Str) : Decidable (Readable line) :=
  match h : lineKey line with
  | .ok key => .isTrue ⟨key, h⟩
  | .error e => .isFalse fun ⟨key, hkey⟩ => by rw [h] at hkey; cases hkey

/-- The command and flag a line is recorded under, if it is recorded at all. -/
def keyOf (line : Str) : Option (Str × Bool) :=
  match lineKey line with
  | .ok key => key
  | .error _ => none

/-- The `sudo` flag of a recorded line. -/
def sudoOf (line : Str) : Bool := ((keyOf line).map Prod.snd).getD false

/-- The lines recorded under command `c`, in order. -/
def linesOf (c : Str) (lines : List Str) : List Str :=
  lines.filter fun line => (keyOf line).map Prod.fst = some c

/-- The lines recorded under any command. -/
def recorded (lines : List Str) : List Str := lines.filter fun line => (keyOf line).isSome

theorem linesOf_append (c : Str) (l₁ l₂ : List Str) :
    linesOf c (l₁ ++ l₂) = linesOf c l₁ ++ linesOf c l₂ := List.filter_append l₁ l₂

theorem lineKey_of_readable {line : Str} (h : Readable line) : lineKey line = .ok (keyOf line) := by
  obtain ⟨key, hkey⟩ := h
  rw [keyOf, hkey]

theorem lineKey_of_not_readable {line : Str} (h : ¬ Readable line) :
    lineKey line = .error .indexError := by
  have hcmd : getCommandFromLine line = .error .indexError := by
    cases hc : getCommandFromLine line with
    | ok result =>
      exact absurd ⟨_, show lineKey line = .ok _ by rw [lineKey, hc]; rfl⟩ h
    | error e =>
      unfold getCommandFromLine at hc
      split at hc
      · cases hc
      · split at hc
        · cases hc
        · cases hc
        · cases hc; rfl
  rw [lineKey, hcmd]
  rfl

theorem readable_of_keyOf {line : Str} {key : Str × Bool} (h : keyOf line = some key) :
    Readable line := by
  by_contra hnot
  rw [keyOf, lineKey_of_not_readable hnot] at h
  cases h

/-- A recorded line names its command again when it is read back. -/
theorem getCommandFromLine_of_keyOf {line c : Str} {b : Bool} (h : keyOf line = some (c, b)) :
    getCommandFromLine line = .ok (c, b) := by
  unfold keyOf lineKey at h
  cases hcmd : getCommandFromLine line with
  | error e => rw [hcmd] at h; cases h
  | ok result =>
    rw [hcmd] at h
    simp only [Except.map] at h
    split at h
    · cases h
    · cases h; rfl

/-! ### Recording into a database of sets -/

/-- Every record holds its examples as a set, as after `readDatabase`. -/
def AllSets (db : Database) : Prop :=
  ∀ c r, db.get? c = some r → r.listOfExamples = .set r.listOfExamples.toFinset

theorem allSets_empty : AllSets Dict.empty := fun _ _ h => by cases h

theorem allSets_readDatabase (file : Option DatabaseFile) : AllSets (readDatabase file).1 := by
  cases file with
  | none => exact allSets_empty
  | some f =>
    intro c r hr
    simp only [readDatabase, Dict.get?_mapVal] at hr
    obtain ⟨d, -, rfl⟩ := Option.map_eq_some_iff.mp hr
    rfl

/-- The record of a command after one more of its lines, examples as a set. -/
def Record.add (r : Option Record) (line : Str) (asSudo : Bool) : Record :=
  ⟨r.elim 0 Record.count + 1, .set (insert line (r.elim ∅ fun r => r.listOfExamples.toFinset)),
    asSudo⟩

/-- The database after a line that can be read, its examples sets. -/
def record (db : Database) (line : Str) : Database :=
  match keyOf line with
  | none => db
  | some (c, asSudo) => db.set c (Record.add (db.get? c) line asSudo)

theorem allSets_record {db : Database} (h : AllSets db) (line : Str) :
    AllSets (record db line) := by
  unfold record
  split
  · exact h
  · next c b _ =>
    intro a r hr
    rw [Dict.get?_set] at hr
    split at hr
    · cases hr; rfl
    · exact h a r hr

theorem allSets_foldl_record {db : Database} (h : AllSets db) (lines : List Str) :
    AllSets (lines.foldl record db) := by
  induction lines generalizing db with
  | nil => exact h
  | cons line lines ih => exact ih (allSets_record h line)

theorem Record.record_of_allSets {db : Database} (h : AllSets db) (c line : Str) (b : Bool) :
    Record.record (db.get? c) line b = .ok (Record.add (db.get? c) line b) := by
  cases hr : db.get? c with
  | none => rfl
  | some r =>
    have hset := h c r hr
    simp only [Record.record, Record.add, Option.getD_some, Option.elim_some]
    rw [hset]
    rfl

/-- **One line.**  On a database of sets a readable line always succeeds. -/
theorem processLine_of_readable {db : Database} (hdb : AllSets db) {line : Str}
    (h : Readable line) : processLine db line = .ok (record db line, (keyOf line).isSome) := by
  rw [processLine_eq, lineKey_of_readable h, record]
  cases hk : keyOf line with
  | none => rfl
  | some key =>
    obtain ⟨c, b⟩ := key
    simp only [Except.bind, Record.record_of_allSets hdb c line b]
    rfl

theorem processLine_of_not_readable (db : Database) {line : Str} (h : ¬ Readable line) :
    processLine db line = .error .indexError := by
  rw [processLine_eq, lineKey_of_not_readable h]
  rfl

/-! ### Whole files -/

/-- **All lines of a file.**  The run lemma of `processLine_of_readable`. -/
theorem processLines_of_readable {db : Database} (hdb : AllSets db) (n : ℕ) {lines : List Str}
    (h : ∀ line ∈ lines, Readable line) :
    processLines (db, n) lines = .ok (lines.foldl record db, n + (recorded lines).length) := by
  induction lines generalizing db n with
  | nil => rfl
  | cons line lines ih =>
    have hline := processLine_of_readable hdb (h line List.mem_cons_self)
    simp only [processLines, hline, bind, Except.bind]
    rw [ih (allSets_record hdb line) _ fun l hl => h l (List.mem_cons_of_mem _ hl)]
    cases hk : keyOf line with
    | none => simp [recorded, hk]
    | some key =>
      simp only [recorded, hk, Option.isSome_some, if_true, List.foldl_cons, List.filter_cons,
        List.length_cons, Except.ok.injEq, Prod.mk.injEq, true_and]
      omega

theorem processLines_of_not_readable {db : Database} (hdb : AllSets db) (n : ℕ) {lines : List Str}
    (h : ¬ ∀ line ∈ lines, Readable line) : processLines (db, n) lines = .error .indexError := by
  induction lines generalizing db n with
  | nil => exact absurd (fun _ hmem => by cases hmem) h
  | cons line lines ih =>
    -- what the lines before the unreadable one have recorded is lost with the run
    by_cases hline : Readable line
    · have hrest : ¬ ∀ l ∈ lines, Readable l := by
        intro hall
        apply h
        intro l hl
        rcases List.mem_cons.mp hl with rfl | hl
        · exact hline
        · exact hall l hl
      simp only [processLines, processLine_of_readable hdb hline, bind, Except.bind]
      exact ih (allSets_record hdb line) _ hrest
    · simp only [processLines, processLine_of_not_readable db hline, bind, Except.bind]

/-- The statistics a run reports, file by file. -/
def statsOf : Database → List (List Str) → List HistoryStats
  | _, [] => []
  | db, lines :: files =>
    ⟨(lines.foldl record db).keys.length, (recorded lines).length⟩ ::
      statsOf (lines.foldl record db) files

/-- **All files.**  A run over history files is one pass over all their lines. -/
theorem processFiles_of_readable {db : Database} (hdb : AllSets db) {files : List (List Str)}
    (h : ∀ line ∈ files.flatten, Readable line) :
    processFiles db files = .ok (files.flatten.foldl record db, statsOf db files) := by
  induction files generalizing db with
  | nil => rfl
  | cons lines files ih =>
    rw [List.flatten_cons] at h
    have h₁ : ∀ line ∈ lines, Readable line := fun l hl => h l (List.mem_append_left _ hl)
    have h₂ : ∀ line ∈ files.flatten, Readable line := fun l hl => h l (List.mem_append_right _ hl)
    simp only [processFiles, processHistoryFile, processLines_of_readable hdb 0 h₁, bind,
      Except.bind, pure, Except.pure]
    rw [ih (allSets_foldl_record hdb lines) h₂, List.flatten_cons, List.foldl_append, Nat.zero_add]
    rfl

theorem processFiles_of_not_readable {db : Database} (hdb : AllSets db) {files : List (List Str)}
    (h : ¬ ∀ line ∈ files.flatten, Readable line) : processFiles db files = .error .indexError := by
  induction files generalizing db with
  | nil => exact absurd (fun _ hmem => by cases hmem) h
  | cons lines files ih =>
    by_cases h₁ : ∀ line ∈ lines, Readable line
    · have h₂ : ¬ ∀ line ∈ files.flatten, Readable line := by
        intro hall
        apply h
        intro l hl
        rw [List.flatten_cons, List.mem_append] at hl
        rcases hl with hl | hl
        · exact h₁ l hl
        · exact hall l hl
      simp only [processFiles, processHistoryFile, processLines_of_readable hdb 0 h₁, bind,
        Except.bind, pure, Except.pure]
      rw [ih (allSets_foldl_record hdb lines) h₂]
    · simp only [processFiles, processHistoryFile, processLines_of_not_readable hdb 0 h₁, bind,
        Except.bind]

/-- A run that returns has read every line. -/
theorem readable_of_processFiles {db : Database} (hdb : AllSets db) {files : List (List Str)}
    {result : Database × List HistoryStats} (h : processFiles db files = .ok result) :
    ∀ line ∈ files.flatten, Readable line := by
  by_contra hnot
  rw [processFiles_of_not_readable hdb hnot] at h
  cases h

/-! ### The tally -/

/-- What more lines of a command make of its entry: they add to the count and to
the examples, and the last of them sets the flag. -/
def Entry.extend (e : Option Entry) (lines : List Str) : Option Entry :=
  match lines.getLast? with
  | none => e
  | some l =>
    some ⟨e.elim 0 Entry.count + lines.length, e.elim ∅ Entry.examples ∪ lines.toFinset, sudoOf l⟩

@[simp] theorem Entry.extend_nil (e : Option Entry) : Entry.extend e [] = e := rfl

theorem Entry.extend_of_ne_nil (e : Option Entry) {lines : List Str} (h : lines ≠ []) :
    Entry.extend e lines = some ⟨e.elim 0 Entry.count + lines.length,
      e.elim ∅ Entry.examples ∪ lines.toFinset, sudoOf (lines.getLast h)⟩ := by
  rw [Entry.extend, List.getLast?_eq_some_getLast h]

theorem Entry.extend_append (e : Option Entry) (l₁ l₂ : List Str) :
    Entry.extend (Entry.extend e l₁) l₂ = Entry.extend e (l₁ ++ l₂) := by
  unfold Entry.extend
  rw [List.getLast?_append]
  -- the flag is that of the last line, which is one of `l₂` unless `l₂` is empty
  cases h₂ : l₂.getLast? with
  | none =>
    have : l₂ = [] := List.getLast?_eq_none_iff.mp h₂
    subst this
    simp
  | some x =>
    cases h₁ : l₁.getLast? with
    | none =>
      have : l₁ = [] := List.getLast?_eq_none_iff.mp h₁
      subst this
      simp
    | some y =>
      simp only [Option.elim_some, Option.or_some, List.length_append, List.toFinset_append,
        Option.some.injEq, Entry.mk.injEq]
      refine ⟨?_, Finset.union_assoc _ _ _, rfl⟩
      push_cast
      ring

theorem view_record (db : Database) (line c : Str) :
    view (record db line) c = Entry.extend (view db c) (linesOf c [line]) := by
  unfold record view
  cases hk : keyOf line with
  | none => simp [linesOf, hk]
  | some key =>
    obtain ⟨a, b⟩ := key
    rw [Dict.get?_set]
    -- recorded under `c` itself, or under another command
    by_cases hc : c = a
    · subst hc
      have hlines : linesOf c [line] = [line] := by simp [linesOf, hk]
      rw [hlines, if_pos rfl]
      cases db.get? c with
      | none => simp [Record.add, Record.entry, Entry.extend, Examples.toFinset, sudoOf, hk]
      | some r =>
        simp only [Record.add, Record.entry, Entry.extend, Examples.toFinset, sudoOf, hk,
          Option.elim_some, Option.map_some, List.getLast?_singleton, Option.getD_some,
          List.length_singleton, List.toFinset_cons, List.toFinset_nil, Option.some.injEq,
          Entry.mk.injEq, and_true]
        rw [Finset.insert_eq, Finset.insert_eq, Finset.union_empty, Finset.union_comm]
        exact ⟨rfl, rfl⟩
    · have hlines : linesOf c [line] = [] := by
        simp [linesOf, hk, Ne.symm hc]
      rw [hlines, if_neg hc, Entry.extend_nil]

/-- **Processing computes the tally**: what the database says about a command after
any lines is its entry before, extended by the lines recorded under it. -/
theorem view_foldl_record (db : Database) (lines : List Str) (c : Str) :
    view (lines.foldl record db) c = Entry.extend (view db c) (linesOf c lines) := by
  induction lines generalizing db with
  | nil => rfl
  | cons line lines ih =>
    rw [List.foldl_cons, ih, view_record, Entry.extend_append, ← linesOf_append,
      List.singleton_append]

theorem sumBy_count_record (db : Database) (line : Str) :
    (record db line).sumBy Record.count =
      db.sumBy Record.count + (recorded [line]).length := by
  unfold record
  cases hk : keyOf line with
  | none => simp [recorded, hk]
  | some key =>
    obtain ⟨c, b⟩ := key
    have hlen : (recorded [line]).length = 1 := by simp [recorded, hk]
    rw [hlen]
    cases hr : db.get? c with
    | none =>
      rw [Dict.sumBy_set_of_none Record.count db _ hr]
      simp [Record.add, hr]
    | some r =>
      rw [Dict.sumBy_set_of_some Record.count db _ hr]
      simp only [Record.add, hr, Option.elim_some]
      push_cast
      ring

/-- The counts of all commands add up to the number of recorded lines. -/
theorem sumBy_count_foldl_record (db : Database) (lines : List Str) :
    (lines.foldl record db).sumBy Record.count =
      db.sumBy Record.count + (recorded lines).length := by
  induction lines generalizing db with
  | nil => simp [recorded]
  | cons line lines ih =>
    have hsplit : recorded (line :: lines) = recorded [line] ++ recorded lines := by
      rw [recorded, recorded, recorded, ← List.filter_append]
      rfl
    rw [List.foldl_cons, ih, sumBy_count_record, hsplit, List.length_append]
    push_cast
    ring

end History
end Dfuser
