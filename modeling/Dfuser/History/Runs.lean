import Dfuser.History.Tally

/-!
# Runs of the history manager

A run reads the database file, files the lines of its history files and writes the
file back.  This module compares runs: two runs in a row with one run over all the
lines, and runs over the same lines in another order or split into other files;
and it reads the invariant of every database built from scratch off the tally.

## Main results

* `readDatabase_writeDatabase` — saving and loading is the identity on a database
  of sets.
* `save_load_run_append` — **a save between two batches of lines is not
  noticeable.**
* `processFiles_perm` — counts and examples do not depend on the order of the
  lines; the flag is that of the last line.
* `processFiles_empty_invariant` — what holds of every database built from the
  empty one.
-/

namespace Dfuser
namespace History

/-! ### Saving and loading -/

/-- What a database file says about command `c`. -/
def fileView (f : DatabaseFile) (c : Str) : Option Entry := (f.get? c).map CommandData.entry

/-- The database a new process finds after this one has saved its own. -/
def reload (o : SetOrder) (db : Database) : Database :=
  (readDatabase (some (writeDatabase o db).2)).1

theorem Examples.toFinset_toList (o : SetOrder) (x : Examples) :
    (x.toList o).toFinset = x.toFinset := by
  cases x with
  | set s => exact o.toFinset_enum s
  | list l => rfl

theorem fileView_writeDatabase (o : SetOrder) (db : Database) :
    fileView (writeDatabase o db).2 = view db := by
  funext c
  simp only [fileView, writeDatabase, view, Dict.get?_mapVal, Option.map_map]
  congr 1
  funext r
  simp [CommandData.entry, Record.entry, Examples.toFinset_toList]

/-- **Saving and loading is the identity on a database of sets.** -/
theorem readDatabase_writeDatabase (o : SetOrder) {db : Database} (h : AllSets db) :
    reload o db = db := by
  obtain ⟨entries, hnodup⟩ := db
  have key : ∀ e ∈ entries,
      (e.1, (⟨e.2.count, .set (e.2.listOfExamples.toList o).toFinset, e.2.runAsSudo⟩ : Record)) =
        e := by
    intro e he
    obtain ⟨c, r⟩ := e
    have hset := h c r ((Dict.mem_entries_iff ⟨entries, hnodup⟩ c r).mp he)
    rw [Examples.toFinset_toList, ← hset]
  simp only [reload, readDatabase, writeDatabase, Dict.mapVal, List.map_map, Dict.mk.injEq]
  exact (List.map_congr_left key).trans (List.map_id' entries)

theorem main_eq (o : SetOrder) (file : Option DatabaseFile) (files : List (List Str)) :
    main o file files =
      if ∀ line ∈ files.flatten, Readable line then
        .ok (writeDatabase o (files.flatten.foldl record (readDatabase file).1)).2
      else .error .indexError := by
  unfold main
  split
  · next h => rw [processFiles_of_readable (allSets_readDatabase file) h]; rfl
  · next h => rw [processFiles_of_not_readable (allSets_readDatabase file) h]; rfl

/-- Every database a run reaches from a database file is one of sets. -/
theorem allSets_of_processFiles {file : Option DatabaseFile} {files : List (List Str)}
    {db : Database} {stats : List HistoryStats}
    (h : processFiles (readDatabase file).1 files = .ok (db, stats)) : AllSets db := by
  have hsets := allSets_readDatabase file
  rw [processFiles_of_readable hsets (readable_of_processFiles hsets h)] at h
  cases h
  exact allSets_foldl_record hsets _

/-- A line does to a database of sets what it does to the reloaded one. -/
theorem processLine_reload (o : SetOrder) {db : Database} (h : AllSets db) (line : Str) :
    processLine (reload o db) line =
      (processLine db line).map fun result => (reload o result.1, result.2) := by
  rw [readDatabase_writeDatabase o h]
  by_cases hline : Readable line
  · rw [processLine_of_readable h hline]
    simp only [Except.map, readDatabase_writeDatabase o (allSets_record h line)]
  · rw [processLine_of_not_readable db hline]
    rfl

/-- Two runs in a row, by two processes, leave what one run over all files leaves. -/
theorem fileView_main_append (o₁ o₂ o₃ : SetOrder) (file : Option DatabaseFile)
    (A B : List (List Str)) :
    ((main o₁ file A).bind fun f => main o₂ (some f) B).map fileView =
      (main o₃ file (A ++ B)).map fileView := by
  have hAB : (∀ line ∈ (A ++ B).flatten, Readable line) ↔
      (∀ line ∈ A.flatten, Readable line) ∧ ∀ line ∈ B.flatten, Readable line := by
    rw [List.flatten_append, List.forall_mem_append]
  rw [main_eq, main_eq]
  by_cases hA : ∀ line ∈ A.flatten, Readable line
  · -- the second process starts from the database the first one had in memory
    have hload := readDatabase_writeDatabase o₁
      (allSets_foldl_record (allSets_readDatabase file) A.flatten)
    rw [reload] at hload
    rw [if_pos hA]
    simp only [Except.bind, main_eq, hload]
    by_cases hB : ∀ line ∈ B.flatten, Readable line
    · rw [if_pos hB, if_pos (hAB.mpr ⟨hA, hB⟩)]
      simp only [Except.map, fileView_writeDatabase, List.flatten_append, List.foldl_append]
    · rw [if_neg hB, if_neg fun h => hB (hAB.mp h).2]
  · rw [if_neg hA, if_neg fun h => hA (hAB.mp h).1]
    rfl

/-- **A save between two batches of lines is not noticeable.**  Every database
reached from a database file survives a save and a load unchanged, the next line
does to it what it would have done without them, and a run on the files `A`
followed by a run of another process on the files `B` leaves what a single run on
all of them leaves. -/
theorem save_load_run_append (o₁ o₂ o₃ : SetOrder) (file : Option DatabaseFile)
    (A B : List (List Str)) :
    (∀ db stats, processFiles (readDatabase file).1 A = .ok (db, stats) →
      reload o₁ db = db ∧
      ∀ line, processLine (reload o₁ db) line =
        (processLine db line).map fun result => (reload o₁ result.1, result.2)) ∧
    ((main o₁ file A).bind fun f => main o₂ (some f) B).map fileView =
      (main o₃ file (A ++ B)).map fileView := by
  refine ⟨fun db stats hrun => ?_, fileView_main_append o₁ o₂ o₃ file A B⟩
  have hsets := allSets_of_processFiles hrun
  exact ⟨readDatabase_writeDatabase o₁ hsets, processLine_reload o₁ hsets⟩

theorem save_load_run_append_make :
    ∃ db stats, processFiles (readDatabase none).1 [["make\n".toList]] = .ok (db, stats) ∧
      reload .sorted db = db :=
  ⟨_, _, rfl,
    ((save_load_run_append .sorted .sorted .sorted none [["make\n".toList]]
      [["make all\n".toList]]).1 _ _ rfl).1⟩

/-! ### The order of the lines -/

theorem linesOf_perm {l₁ l₂ : List Str} (h : l₁.Perm l₂) (c : Str) :
    (linesOf c l₁).Perm (linesOf c l₂) := h.filter _

theorem Entry.map_count_extend (e : Option Entry) (lines : List Str) :
    (Entry.extend e lines).map Entry.count =
      if lines = [] then e.map Entry.count else some (e.elim 0 Entry.count + lines.length) := by
  split
  · next h => rw [h, Entry.extend_nil]
  · next h =>
    rw [Entry.extend_of_ne_nil e h]
    rfl

theorem Entry.map_examples_extend (e : Option Entry) (lines : List Str) :
    (Entry.extend e lines).map Entry.examples =
      if lines = [] then e.map Entry.examples
      else some (e.elim ∅ Entry.examples ∪ lines.toFinset) := by
  split
  · next h => rw [h, Entry.extend_nil]
  · next h =>
    rw [Entry.extend_of_ne_nil e h]
    rfl

/-- The flag after more lines: that of the last of them. -/
theorem Entry.map_runAsSudo_extend (e : Option Entry) (lines : List Str) :
    (Entry.extend e lines).map Entry.runAsSudo =
      (lines.getLast?.map sudoOf).or (e.map Entry.runAsSudo) := by
  unfold Entry.extend
  cases lines.getLast? <;> rfl

/-- The database a run over `files` ends in, as a tally. -/
theorem view_of_processFiles {file : Option DatabaseFile} {files : List (List Str)}
    {db : Database} {stats : List HistoryStats}
    (h : processFiles (readDatabase file).1 files = .ok (db, stats)) (c : Str) :
    view db c = Entry.extend (view (readDatabase file).1 c) (linesOf c files.flatten) := by
  have hsets := allSets_readDatabase file
  rw [processFiles_of_readable hsets (readable_of_processFiles hsets h)] at h
  cases h
  exact view_foldl_record _ _ c

/-- **The order of the lines.**  Two runs over the same lines, in any order and split
into files in any way, end with the same counts and the same examples; the flag of
a command is in each run that of the last line recorded under it, and the flag it
had before when there is none. -/
theorem processFiles_perm (file : Option DatabaseFile) {files₁ files₂ : List (List Str)}
    (hperm : files₁.flatten.Perm files₂.flatten) {db₁ db₂ : Database}
    {stats₁ stats₂ : List HistoryStats}
    (h₁ : processFiles (readDatabase file).1 files₁ = .ok (db₁, stats₁))
    (h₂ : processFiles (readDatabase file).1 files₂ = .ok (db₂, stats₂)) (c : Str) :
    (view db₁ c).map Entry.count = (view db₂ c).map Entry.count ∧
    (view db₁ c).map Entry.examples = (view db₂ c).map Entry.examples ∧
    (view db₁ c).map Entry.runAsSudo =
      ((linesOf c files₁.flatten).getLast?.map sudoOf).or
        ((view (readDatabase file).1 c).map Entry.runAsSudo) ∧
    (view db₂ c).map Entry.runAsSudo =
      ((linesOf c files₂.flatten).getLast?.map sudoOf).or
        ((view (readDatabase file).1 c).map Entry.runAsSudo) := by
  have hlines := linesOf_perm hperm c
  -- counts and examples are functions of the lines of `c` up to order
  have hnil : linesOf c files₁.flatten = [] ↔ linesOf c files₂.flatten = [] := by
    rw [← List.length_eq_zero_iff, ← List.length_eq_zero_iff, hlines.length_eq]
  rw [view_of_processFiles h₁ c, view_of_processFiles h₂ c]
  refine ⟨?_, ?_, Entry.map_runAsSudo_extend _ _, Entry.map_runAsSudo_extend _ _⟩
  · rw [Entry.map_count_extend, Entry.map_count_extend, hlines.length_eq]
    simp only [hnil]
  · rw [Entry.map_examples_extend, Entry.map_examples_extend, List.toFinset_eq_of_perm _ _ hlines]
    simp only [hnil]

theorem processFiles_perm_sudo_make :
    [["sudo make\n".toList],
      ["make\n".toList]].flatten.Perm [["make\n".toList, "sudo make\n".toList]].flatten ∧
    ∀ c, (processFiles (readDatabase none).1 [["sudo make\n".toList], ["make\n".toList]]).map
        (fun r => (view r.1 c).map Entry.count) =
      (processFiles (readDatabase none).1 [["make\n".toList, "sudo make\n".toList]]).map
        (fun r => (view r.1 c).map Entry.count) :=
  have hperm : [["sudo make\n".toList], ["make\n".toList]].flatten.Perm
      [["make\n".toList, "sudo make\n".toList]].flatten := List.Perm.swap _ _ _
  ⟨hperm, fun c => congrArg Except.ok
    (@processFiles_perm none [["sudo make\n".toList], ["make\n".toList]]
      [["make\n".toList, "sudo make\n".toList]] hperm _ _ _ _ rfl rfl c).1⟩

/-- The flag does depend on the order: a command run with and without `sudo` keeps
the flag of its last line. -/
theorem runAsSudo_depends_on_order :
    (processFiles (readDatabase none).1 [["sudo make\n".toList, "make\n".toList]]).map
        (fun r => (view r.1 "make".toList).map Entry.runAsSudo) = .ok (some false) ∧
    (processFiles (readDatabase none).1 [["make\n".toList, "sudo make\n".toList]]).map
        (fun r => (view r.1 "make".toList).map Entry.runAsSudo) = .ok (some true) :=
  ⟨rfl, rfl⟩

/-! ### Databases built from scratch -/

/-- How many of the calls of `processLine` on `lines` return `True`. -/
def trueCalls : Database → List Str → ℕ
  | _, [] => 0
  | db, line :: lines =>
    match processLine db line with
    | .ok (db', true) => trueCalls db' lines + 1
    | .ok (db', false) => trueCalls db' lines
    | .error _ => 0

theorem trueCalls_of_readable {db : Database} (hdb : AllSets db) {lines : List Str}
    (h : ∀ line ∈ lines, Readable line) : trueCalls db lines = (recorded lines).length := by
  induction lines generalizing db with
  | nil => rfl
  | cons line lines ih =>
    have hrest := ih (allSets_record hdb line) fun l hl => h l (List.mem_cons_of_mem _ hl)
    rw [trueCalls, processLine_of_readable hdb (h line List.mem_cons_self)]
    cases hk : keyOf line with
    | none =>
      simp only [recorded, hk, Option.isSome_none, List.filter_cons, Bool.false_eq_true, if_false]
      exact hrest
    | some key =>
      simp only [recorded, hk, Option.isSome_some, List.filter_cons, if_true, List.length_cons]
      exact congrArg (· + 1) hrest

theorem sum_linesProcessed_statsOf (db : Database) (files : List (List Str)) :
    ((statsOf db files).map HistoryStats.linesProcessed).sum = (recorded files.flatten).length := by
  induction files generalizing db with
  | nil => rfl
  | cons lines files ih =>
    rw [statsOf, List.map_cons, List.sum_cons, ih, List.flatten_cons, recorded, recorded, recorded,
      List.filter_append, List.length_append]

theorem totalCommands_of_getLast?_statsOf {db : Database} {files : List (List Str)}
    {st : HistoryStats} (h : (statsOf db files).getLast? = some st) :
    st.totalCommands = (files.flatten.foldl record db).keys.length := by
  induction files generalizing db with
  | nil => cases h
  | cons lines files ih =>
    rw [statsOf] at h
    cases files with
    | nil =>
      rw [statsOf, List.getLast?_singleton, Option.some.injEq] at h
      rw [← h]
      simp
    | cons lines' files =>
      rw [List.flatten_cons, List.foldl_append]
      refine ih ?_
      rw [statsOf, List.getLast?_cons_cons] at h
      exact h

/-- What is stored under a command of a database built from scratch. -/
theorem record_of_foldl_empty {lines : List Str} {c : Str} {r : Record}
    (h : (lines.foldl record Dict.empty).get? c = some r) :
    linesOf c lines ≠ [] ∧ r.count = (linesOf c lines).length ∧
      r.listOfExamples.toFinset = (linesOf c lines).toFinset := by
  have hview : Entry.extend none (linesOf c lines) = some r.entry := by
    have := view_foldl_record Dict.empty lines c
    rw [view, h] at this
    exact this.symm
  unfold Entry.extend at hview
  cases hlast : (linesOf c lines).getLast? with
  | none => rw [hlast] at hview; cases hview
  | some l =>
    rw [hlast] at hview
    have hne : linesOf c lines ≠ [] := List.ne_nil_of_mem (List.mem_of_getLast? hlast)
    simp only [Option.elim_none, zero_add, Finset.empty_union, Option.some.injEq,
      Record.entry, Entry.mk.injEq] at hview
    exact ⟨hne, hview.1.symm, hview.2.1.symm⟩

/-- **Databases built from scratch.**  Every example stored under a command names
that command, a command has at least one example and at most as many as its count,
and the counts add up to the number of calls that recorded a line — which is what
the statistics of the files report, together with the number of commands. -/
theorem processFiles_empty_invariant {files : List (List Str)} {db : Database}
    {stats : List HistoryStats} (h : processFiles Dict.empty files = .ok (db, stats)) :
    (∀ c r, db.get? c = some r →
      (∀ e ∈ r.listOfExamples.toFinset, ∃ b, getCommandFromLine e = .ok (c, b)) ∧
      1 ≤ r.listOfExamples.toFinset.card ∧
      (r.listOfExamples.toFinset.card : ℤ) ≤ r.count) ∧
    db.sumBy Record.count = trueCalls Dict.empty files.flatten ∧
    (stats.map HistoryStats.linesProcessed).sum = trueCalls Dict.empty files.flatten ∧
    ∀ st, stats.getLast? = some st → st.totalCommands = db.keys.length := by
  have hread := readable_of_processFiles allSets_empty h
  rw [processFiles_of_readable allSets_empty hread] at h
  cases h
  rw [trueCalls_of_readable allSets_empty hread]
  refine ⟨?_, ?_, sum_linesProcessed_statsOf _ _, fun st => totalCommands_of_getLast?_statsOf⟩
  · intro c r hr
    obtain ⟨hne, hcount, hex⟩ := record_of_foldl_empty hr
    rw [hex, hcount]
    refine ⟨?_, ?_, ?_⟩
    · intro e he
      rw [List.mem_toFinset, linesOf, List.mem_filter, decide_eq_true_eq,
        Option.map_eq_some_iff] at he
      obtain ⟨-, ⟨c', b⟩, hkey, rfl⟩ := he
      exact ⟨b, getCommandFromLine_of_keyOf hkey⟩
    · obtain ⟨l, hl⟩ := List.exists_mem_of_ne_nil _ hne
      exact Finset.card_pos.mpr ⟨l, List.mem_toFinset.mpr hl⟩
    · exact_mod_cast List.toFinset_card_le _
  · rw [sumBy_count_foldl_record, Dict.sumBy_empty, zero_add]

theorem processFiles_empty_invariant_git :
    ∃ db stats, processFiles Dict.empty
        [["git log\n".toList, "# note\n".toList, "git log\n".toList], ["!ls\n".toList]] =
          .ok (db, stats) ∧
      db.sumBy Record.count = 3 ∧ (stats.map HistoryStats.linesProcessed).sum = 3 :=
  have hrun := @processFiles_empty_invariant
    [["git log\n".toList, "# note\n".toList, "git log\n".toList], ["!ls\n".toList]] _ _ rfl
  ⟨_, _, rfl, hrun.2.1, hrun.2.2.1⟩

end History
end Dfuser
