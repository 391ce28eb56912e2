import Dfuser.History.Tally

/-!
# Saving a live database

`writeDatabase` turns the sets of the live database into lists before it dumps
them, and leaves them so.  A line of a command that was in the database at that
moment then has nothing to be added to: `Examples.add` fails.  This module says
exactly which interleavings of `process_line` and `write_database` calls on one
object run into that.

## Main definitions

* `Call`, `runCalls` — calls on one `HistoryManager` object.
* `SavingObserves` — the calls succeed and end in the database the `process_line`
  calls alone end in.
* `NoReuseAfterSave` — no line is recorded under a command that an earlier save
  found in the database.

## Main results

* `runCalls_iff_safeFrom` — the step-by-step form of the condition.
* `savingObserves_iff` — **saving is an observation exactly when no saved command
  is used again.**
-/

namespace Dfuser
namespace History

/-! ### Calls -/

/-- A call of a method of one `HistoryManager` object. -/
inductive Call
  | processLine (line : Str)
  | writeDatabase
  deriving DecidableEq

/-- The effect of one call on the live database. -/
def runCall (o : SetOrder) (db : Database) : Call → Except PyError Database
  | .processLine line => (processLine db line).map Prod.fst
  | .writeDatabase => .ok (writeDatabase o db).1

/-- The calls in order; the first exception ends the run. -/
def runCalls (o : SetOrder) : Database → List Call → Except PyError Database
  | db, [] => .ok db
  | db, call :: calls => (runCall o db call).bind fun db => runCalls o db calls

/-- The lines the calls process. -/
def linesIn : List Call → List Str
  | [] => []
  | .processLine line :: calls => line :: linesIn calls
  | .writeDatabase :: calls => linesIn calls

/-- No call fails, and the final database says the same about every command as
after the same `process_line` calls without the saves. -/
def SavingObserves (o : SetOrder) (db : Database) (calls : List Call) : Prop :=
  ∃ d, runCalls o db calls = .ok d ∧
    ∃ d', runCalls o db ((linesIn calls).map .processLine) = .ok d' ∧ ∀ c, view d c = view d' c

/-- The command a line is recorded under. -/
def commandOf (line : Str) : Option Str := (keyOf line).map Prod.fst

/-- The database holds command `c` after the calls in `before`. -/
def Known (db : Database) (before : List Call) (c : Str) : Prop :=
  c ∈ db.keys ∨ ∃ line ∈ linesIn before, commandOf line = some c

/-- No line is recorded under a command that was in the database at an earlier
save. -/
def NoReuseAfterSave (db : Database) (calls : List Call) : Prop :=
  ∀ before between after line c,
    calls = before ++ .writeDatabase :: (between ++ .processLine line :: after) →
    commandOf line = some c → ¬ Known db before c

/-! ### One call -/

/-- The examples of command `c` are a list: a save has found it. -/
def Frozen (db : Database) (c : Str) : Prop :=
  ∃ r l, db.get? c = some r ∧ r.listOfExamples = .list l

theorem not_frozen_of_allSets {db : Database} (h : AllSets db) (c : Str) : ¬ Frozen db c := by
  rintro ⟨r, l, hr, hl⟩
  rw [h c r hr] at hl
  cases hl

theorem frozen_writeDatabase (o : SetOrder) (db : Database) (c : Str) :
    Frozen (writeDatabase o db).1 c ↔ c ∈ db.keys := by
  rw [Dict.mem_keys_iff]
  constructor
  · rintro ⟨r, l, hr, -⟩
    simp only [writeDatabase, Dict.get?_mapVal] at hr
    obtain ⟨r', hr', -⟩ := Option.map_eq_some_iff.mp hr
    exact ⟨r', hr'⟩
  · rintro ⟨r, hr⟩
    refine ⟨{ r with listOfExamples := .list (r.listOfExamples.toList o) },
      r.listOfExamples.toList o, ?_, rfl⟩
    simp only [writeDatabase, Dict.get?_mapVal, hr]
    rfl

theorem view_writeDatabase (o : SetOrder) (db : Database) (c : Str) :
    view (writeDatabase o db).1 c = view db c := by
  simp only [view, writeDatabase, Dict.get?_mapVal, Option.map_map]
  congr 1
  funext r
  simp only [Function.comp_apply, Record.entry, Entry.mk.injEq, and_true, true_and]
  cases r.listOfExamples with
  | set s => exact o.toFinset_enum s
  | list l => rfl

theorem keys_writeDatabase (o : SetOrder) (db : Database) : (writeDatabase o db).1.keys = db.keys :=
  Dict.keys_mapVal _ db

/-- A line of a frozen command fails. -/
theorem processLine_of_frozen {db : Database} {line c : Str} {b : Bool}
    (hkey : keyOf line = some (c, b)) (h : Frozen db c) :
    processLine db line = .error .attributeError := by
  obtain ⟨r, l, hr, hl⟩ := h
  rw [processLine_eq, lineKey_of_readable (readable_of_keyOf hkey), hkey]
  simp only [Except.bind, hr, Record.record, Option.getD_some, hl]
  rfl

/-- Any other line is recorded as in a database of sets. -/
theorem processLine_of_not_frozen {db : Database} {line c : Str} {b : Bool}
    (hkey : keyOf line = some (c, b)) (h : ¬ Frozen db c) :
    processLine db line = .ok (record db line, true) := by
  rw [processLine_eq, lineKey_of_readable (readable_of_keyOf hkey), record, hkey]
  cases hr : db.get? c with
  | none => simp [Except.bind, hr, Record.record, Record.add, Examples.add, Except.map]
  | some r =>
    cases hex : r.listOfExamples with
    | list l => exact absurd ⟨r, l, hr, hex⟩ h
    | set s =>
      simp [Except.bind, hr, Record.record, Record.add, Examples.add, Except.map, hex,
        Examples.toFinset]

theorem frozen_record {db : Database} {line c : Str} {b : Bool} (hkey : keyOf line = some (c, b))
    (h : ¬ Frozen db c) (a : Str) : Frozen (record db line) a ↔ Frozen db a := by
  unfold Frozen
  rw [record, hkey]
  simp only [Dict.get?_set]
  by_cases ha : a = c
  · subst ha
    simp only [if_true]
    constructor
    · rintro ⟨r, l, hr, hl⟩
      cases hr
      cases hl
    · intro hf
      exact absurd hf h
  · simp only [ha, if_false]

/-! ### One line -/

theorem runCall_of_no_key (o : SetOrder) (db : Database) {line : Str} (hline : Readable line)
    (hkey : keyOf line = none) : runCall o db (.processLine line) = .ok db := by
  rw [runCall, processLine_eq, lineKey_of_readable hline, hkey]
  rfl

theorem runCall_of_frozen (o : SetOrder) {db : Database} {line c : Str} {b : Bool}
    (hkey : keyOf line = some (c, b)) (h : Frozen db c) :
    runCall o db (.processLine line) = .error .attributeError := by
  rw [runCall, processLine_of_frozen hkey h]
  rfl

theorem runCall_of_not_frozen (o : SetOrder) {db : Database} {line c : Str} {b : Bool}
    (hkey : keyOf line = some (c, b)) (h : ¬ Frozen db c) :
    runCall o db (.processLine line) = .ok (record db line) := by
  rw [runCall, processLine_of_not_frozen hkey h]
  rfl

theorem mem_keys_record {db : Database} {line c : Str} {b : Bool}
    (hkey : keyOf line = some (c, b)) (a : Str) :
    a ∈ (record db line).keys ↔ a = c ∨ a ∈ db.keys := by
  rw [record, hkey]
  exact Dict.mem_keys_set db c a _

/-! ### The condition, call by call -/

/-- The calls never record a line under a frozen command, where a save freezes the
commands that are known. -/
def SafeFrom (frozen known : Str → Prop) : List Call → Prop
  | [] => True
  | .writeDatabase :: calls => SafeFrom known known calls
  | .processLine line :: calls =>
    match commandOf line with
    | none => SafeFrom frozen known calls
    | some c => ¬ frozen c ∧ SafeFrom frozen (fun a => a = c ∨ known a) calls

/-- A run from a database some of whose commands are frozen, compared with the same
lines recorded into a database of sets that says the same.  The induction is on the
calls; the invariant is that the two databases say the same about every command. -/
theorem runCalls_iff_safeFrom (o : SetOrder) {calls : List Call}
    (hread : ∀ line ∈ linesIn calls, Readable line) (db d : Database)
    (hview : ∀ c, view db c = view d c) :
    (∃ e, runCalls o db calls = .ok e ∧
      ∀ c, view e c = view ((linesIn calls).foldl record d) c) ↔
    SafeFrom (Frozen db) (· ∈ db.keys) calls := by
  induction calls generalizing db d with
  | nil =>
    simp only [runCalls, SafeFrom, iff_true]
    exact ⟨db, rfl, hview⟩
  | cons call calls ih =>
    cases call with
    | writeDatabase =>
      -- a save changes no entry, and freezes every command that is known
      have hstep := ih hread (writeDatabase o db).1 d
        (fun c => (view_writeDatabase o db c).trans (hview c))
      have hfrozen : Frozen (writeDatabase o db).1 = (· ∈ db.keys) :=
        funext fun c => propext (frozen_writeDatabase o db c)
      rw [hfrozen, keys_writeDatabase] at hstep
      exact hstep
    | processLine line =>
      have hrest : ∀ l ∈ linesIn calls, Readable l :=
        fun l hl => hread l (List.mem_cons_of_mem _ hl)
      have hline : Readable line := hread line List.mem_cons_self
      cases hkey : keyOf line with
      | none =>
        have hrun := runCall_of_no_key o db hline hkey
        have hd : record d line = d := by rw [record, hkey]
        have hcmd : commandOf line = none := by rw [commandOf, hkey]; rfl
        simp only [runCalls, hrun, Except.bind, SafeFrom, hcmd, linesIn, List.foldl_cons, hd]
        exact ih hrest db d hview
      | some key =>
        obtain ⟨c, b⟩ := key
        have hcmd : commandOf line = some c := by rw [commandOf, hkey]; rfl
        simp only [SafeFrom, hcmd]
        -- the examples of a frozen command are a list, and `add` fails on it
        by_cases hf : Frozen db c
        · have hrun := runCall_of_frozen o hkey hf
          simp only [runCalls, hrun, Except.bind, hf, not_true_eq_false, false_and, iff_false]
          rintro ⟨e, he, -⟩
          cases he
        · have hrun := runCall_of_not_frozen o hkey hf
          have hstep := ih hrest (record db line) (record d line)
            (fun a => by rw [view_record, view_record, hview a])
          have hfrozen : Frozen (record db line) = Frozen db :=
            funext fun a => propext (frozen_record hkey hf a)
          have hknown : (· ∈ (record db line).keys) = fun a => a = c ∨ a ∈ db.keys :=
            funext fun a => propext (mem_keys_record hkey a)
          rw [hfrozen, hknown] at hstep
          simp only [runCalls, hrun, Except.bind, hf, not_false_eq_true, true_and, linesIn,
            List.foldl_cons]
          exact hstep

/-! ### The condition, read off the list of calls -/

theorem mem_linesIn {line : Str} {calls : List Call} :
    line ∈ linesIn calls ↔ .processLine line ∈ calls := by
  induction calls with
  | nil => simp [linesIn]
  | cons call calls ih => cases call <;> simp [linesIn, ih]

/-- No line of the calls is recorded under a command of `p`. -/
def Avoids (p : Str → Prop) (calls : List Call) : Prop :=
  ∀ line ∈ linesIn calls, ∀ c, commandOf line = some c → ¬ p c

/-- After each save, the calls avoid the commands known at the save. -/
def AvoidsSaved (known : Str → Prop) (calls : List Call) : Prop :=
  ∀ before rest, calls = before ++ .writeDatabase :: rest →
    Avoids (fun c => known c ∨ ∃ line ∈ linesIn before, commandOf line = some c) rest

theorem Avoids.mono {p q : Str → Prop} {calls : List Call} (h : Avoids q calls)
    (hpq : ∀ c, p c → q c) : Avoids p calls :=
  fun line hline c hc hp => h line hline c hc (hpq c hp)

theorem avoids_processLine {p : Str → Prop} {line : Str} {calls : List Call} :
    Avoids p (.processLine line :: calls) ↔
      (∀ c, commandOf line = some c → ¬ p c) ∧ Avoids p calls := by
  simp only [Avoids, linesIn, List.forall_mem_cons]

theorem avoidsSaved_writeDatabase {known : Str → Prop} {calls : List Call} :
    AvoidsSaved known (.writeDatabase :: calls) ↔ Avoids known calls ∧ AvoidsSaved known calls := by
  constructor
  · intro h
    refine ⟨(h [] calls rfl).mono fun c => Or.inl, fun before rest heq => ?_⟩
    exact h (.writeDatabase :: before) rest (by rw [heq, List.cons_append])
  · rintro ⟨hnow, hlater⟩ before rest heq
    rcases List.cons_eq_append_iff.mp heq with ⟨rfl, hrest⟩ | ⟨before', rfl, hcalls⟩
    · cases hrest
      apply hnow.mono
      intro c hc
      rcases hc with hc | ⟨line, hline, -⟩
      · exact hc
      · cases hline
    · exact hlater before' rest hcalls

theorem avoidsSaved_processLine {known : Str → Prop} {line : Str} {calls : List Call} :
    AvoidsSaved known (.processLine line :: calls) ↔
      AvoidsSaved (fun a => commandOf line = some a ∨ known a) calls := by
  -- what is known at a save: the line just processed, or something known without it
  have hknown : ∀ before : List Call, (fun c => known c ∨
      ∃ l ∈ linesIn (.processLine line :: before), commandOf l = some c) =
      fun c => (commandOf line = some c ∨ known c) ∨
        ∃ l ∈ linesIn before, commandOf l = some c := by
    intro before
    funext c
    simp only [linesIn, List.exists_mem_cons_iff]
    exact propext (by tauto)
  constructor
  · intro h before rest heq
    have hrest := h (.processLine line :: before) rest (by rw [heq, List.cons_append])
    rwa [hknown] at hrest
  · intro h before rest heq
    rcases List.cons_eq_append_iff.mp heq with ⟨-, hrest⟩ | ⟨before', rfl, hcalls⟩
    · cases hrest
    · rw [hknown]
      exact h before' rest hcalls

/-- The step-by-step condition, read off the list of calls: they avoid what is frozen
at the start, and after each save what is known then. -/
theorem safeFrom_iff {frozen known : Str → Prop} (hsub : ∀ c, frozen c → known c)
    (calls : List Call) :
    SafeFrom frozen known calls ↔ Avoids frozen calls ∧ AvoidsSaved known calls := by
  induction calls generalizing frozen known with
  | nil => simp [SafeFrom, Avoids, AvoidsSaved, linesIn]
  | cons call calls ih =>
    cases call with
    | writeDatabase =>
      rw [SafeFrom, ih fun _ h => h, avoidsSaved_writeDatabase]
      constructor
      · rintro ⟨hnow, hlater⟩
        exact ⟨hnow.mono hsub, hnow, hlater⟩
      · rintro ⟨-, hsaved⟩
        exact hsaved
    | processLine line =>
      rw [SafeFrom, avoids_processLine, avoidsSaved_processLine]
      cases hc : commandOf line with
      | none => simp [ih hsub]
      | some c =>
        simp only [Option.some.injEq, forall_eq, ih fun a h => Or.inr (hsub a h), and_assoc,
          eq_comm (a := c)]

theorem noReuseAfterSave_iff {db : Database} {calls : List Call} :
    NoReuseAfterSave db calls ↔ AvoidsSaved (· ∈ db.keys) calls := by
  constructor
  · intro h before rest heq line hline c hc
    obtain ⟨between, after, hsplit⟩ := List.append_of_mem (mem_linesIn.mp hline)
    exact h before between after line c (by rw [heq, hsplit]) hc
  · intro h before between after line c heq hc
    exact h before _ heq line (mem_linesIn.mpr (by simp)) c hc

/-! ### The result -/

theorem runCalls_lines (o : SetOrder) {db : Database} (hdb : AllSets db) {lines : List Str}
    (h : ∀ line ∈ lines, Readable line) :
    runCalls o db (lines.map .processLine) = .ok (lines.foldl record db) := by
  induction lines generalizing db with
  | nil => rfl
  | cons line lines ih =>
    have hline := processLine_of_readable hdb (h line List.mem_cons_self)
    simp only [List.map_cons, runCalls, runCall, hline, Except.map, Except.bind, List.foldl_cons]
    exact ih (allSets_record hdb line) fun l hl => h l (List.mem_cons_of_mem _ hl)

/-- **Saving is an observation exactly when no saved command is used again.**  For a
database read from a file and lines that can be read, the calls succeed and end in
the database the lines alone end in if and only if no line is recorded under a
command that an earlier save found in the database. -/
theorem savingObserves_iff (o : SetOrder) (file : Option DatabaseFile) {calls : List Call}
    (hread : ∀ line ∈ linesIn calls, Readable line) :
    SavingObserves o (readDatabase file).1 calls ↔
      NoReuseAfterSave (readDatabase file).1 calls := by
  set db := (readDatabase file).1
  have hdb : AllSets db := allSets_readDatabase file
  have hplain := runCalls_lines o hdb hread
  have hfrozen : ∀ c, Frozen db c → c ∈ db.keys := fun c h => absurd h (not_frozen_of_allSets hdb c)
  have hobs : SavingObserves o db calls ↔
      ∃ e, runCalls o db calls = .ok e ∧
        ∀ c, view e c = view ((linesIn calls).foldl record db) c := by
    unfold SavingObserves
    rw [hplain]
    constructor
    · rintro ⟨d, hd, d', hd', hsame⟩
      cases hd'
      exact ⟨d, hd, hsame⟩
    · rintro ⟨d, hd, hsame⟩
      exact ⟨d, hd, _, rfl, hsame⟩
  rw [hobs, runCalls_iff_safeFrom o hread db db fun _ => rfl, safeFrom_iff hfrozen,
    noReuseAfterSave_iff]
  constructor
  · rintro ⟨-, hsaved⟩
    exact hsaved
  · intro hsaved
    exact ⟨fun _ _ c _ => not_frozen_of_allSets hdb c, hsaved⟩

theorem savingObserves_iff_make :
    SavingObserves .sorted (readDatabase none).1
        [.processLine "make\n".toList, .writeDatabase, .processLine "git log\n".toList] ↔
      NoReuseAfterSave (readDatabase none).1
        [.processLine "make\n".toList, .writeDatabase, .processLine "git log\n".toList] :=
  savingObserves_iff .sorted none (by decide)

/-- A second `make` after a save raises. -/
theorem not_savingObserves_make_twice :
    ¬ SavingObserves .sorted (readDatabase none).1
      [.processLine "make\n".toList, .writeDatabase, .processLine "make\n".toList] := by
  rintro ⟨d, hd, -⟩
  cases hd

end History
end Dfuser
