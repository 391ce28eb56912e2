import Dfuser.Lib.Coreutils
import Dfuser.Lib.Run

/-!
# Scans in the background

`dir_scan` of `scripts/sgt-kb.sh` starts a scan of a directory in the background.  The scan
writes a log and a JSON file, and its process id goes to a file of its own.  `get_pids` goes
through these files, and removes those whose process is gone.

The names of the three files come from the path of the directory, with `-` for `/`.  So two
scans of one directory share them, and so do scans of `/a/b` and `/a-b`.  The second scan then
overwrites the process id of the first one, and writes to the same files.  The names are not
quoted either: one that is a pattern stands for the names that it matches.

`KB_ROOT` is one literal word, and its directory of process ids exists.  A call of `dir_scan`
is given by the path that `realpath` prints and by whether that is a directory.  `scan_many`
is a sequence of such calls, with a newline for `IFS`.  A message of the shell, such as that a
redirection is ambiguous, is left out.

## Main definitions

* `dirScan`, `getPids` — the functions of the script.
* `step` — what happens in `KB_ROOT`, one event after another.
* `Tracks` — running scans are reported, and share no file.
* `OwnNames`, `Separate` — a new scan has names of its own.
* `Tracked` — the invariant.

## Main results

* `step_dirScan` — what a call of `dir_scan` does where the names are its own.
* `tracked_checkPids` — the loop of `get_pids` keeps the files of running scans, and reports
  them.
* `tracked_step` — one event keeps the invariant.
* `tracks_of_separate` — **then every running scan is tracked.**
* `separate_of_tracks` — and not otherwise, where no name is a pattern of another one.
* `not_tracks` — not when a directory is scanned twice at a time.
-/

namespace Dfuser
namespace SgtKb

/-! ### The script -/

/-- The value of `IFS`: that of a shell that has just started, or the one that `scan_many`
sets. -/
inductive Ifs
  | blanks
  | newline
  deriving DecidableEq, Repr

def Ifs.splits : Ifs → Char → Bool
  | .blanks, c => isBlank c
  | .newline, c => c = '\n'

/-- A scan in the background: the process id of its subshell, the directory, and the files
that it writes. -/
structure Scan where
  pid : ℕ
  target : Str
  json : Str
  log : Str
  deriving DecidableEq, Repr

/-- `KB_ROOT`: the names in it, the files of process ids, and the scans that run. -/
structure Kb where
  files : List Str
  nodup : files.Nodup
  pids : Dict Str ℕ
  running : List Scan

/-- The path with a `-` for every `/`. -/
def dashed (target : Str) : Str := target.map fun c => if c = '/' then '-' else c

/-- The name of a file of a scan, with its ending. -/
def kbFile (ending target : Str) : Str :=
  "sgt-kb_".toList ++ dashed target ++ "_files".toList ++ ending

def outputLogFile (target : Str) : Str := kbFile ".log".toList target

def outputJsonFile (target : Str) : Str := kbFile ".json".toList target

def pidFile (target : Str) : Str := kbFile ".pid".toList target

/-- The words that an unquoted name of a file comes to. -/
def words (ifs : Ifs) (names : List Str) (name : Str) : List Str :=
  (fields ifs.splits name).flatMap (expandAmong names)

/-- The file that a redirection to an unquoted name opens.  More than one word is an ambiguous
redirect. -/
def redirect (ifs : Ifs) (names : List Str) (name : Str) : Option Str :=
  match words ifs names name with
  | [file] => some file
  | _ => none

/-- Why `dir_scan` does nothing. -/
inductive Refusal
  | usage
  | noDirectory (target : Str)
  deriving DecidableEq, Repr

/-- The message of a refusal, where the shell has the name `self` (`$0`). -/
def Refusal.message (self : Str) : Refusal → Str
  | .usage => "Usage: ".toList ++ self ++ " <target_directory>".toList
  | .noDirectory target => "Target directory does not exist: ".toList ++ target

/-- A file of `KB_ROOT` is opened for writing. -/
def Kb.create (st : Kb) (name : Str) : Kb :=
  { st with files := st.files.insert name, nodup := st.nodup.insert }

/-- `( sgt-kb -f $output_json_file $target_directory > $output_log_file 2>&1 ) &` -/
def Kb.start (st : Kb) (ifs : Ifs) (target : Str) (pid : ℕ) : Kb :=
  match redirect ifs st.files (outputLogFile target) with
  -- without its log the subshell ends at once
  | none => st
  | some log =>
    let json := (words ifs st.files (outputJsonFile target)).headD []
    { st.create log with running := ⟨pid, target, json, log⟩ :: st.running }

/-- `echo $! > ${PID_DIR}/…` -/
def Kb.writePid (st : Kb) (ifs : Ifs) (target : Str) (pid : ℕ) : Kb :=
  match redirect ifs st.pids.keys (pidFile target) with
  | none => st
  | some file => { st with pids := st.pids.set file pid }

/-- `dir_scan`, where `realpath` prints `target`, and `pid` is the process id of the subshell. -/
def dirScan (ifs : Ifs) (target : Str) (isDirectory : Bool) (pid : ℕ) (st : Kb) :
    Except Refusal Kb :=
  if target = [] then .error .usage
  else if !isDirectory then .error (.noDirectory target)
  else .ok ((st.start ifs target pid).writePid ifs target pid)

/-- `[ -d /proc/$pid ]`.  Without a process id that is `/proc/`, and several are several
operands. -/
def isProcess (live : ℕ → Bool) : List ℕ → Bool
  | [] => true
  | [pid] => live pid
  | _ => false

/-- `basename` of paths in the directory of process ids.  A second operand is a suffix; as it
has a slash, no name ends in it. -/
def baseNameOf : List Str → Str
  | [n] => n
  | [n, _] => n
  | _ => []

def stillRunning (file : Str) : Str := file ++ " is still running".toList

def removing (file : Str) : Str := file ++ " removing pid file".toList

/-- One turn of the loop of `get_pids`: the files of process ids, and what has been printed. -/
def checkPid (live : ℕ → Bool) (acc : Dict Str ℕ × List Str) (pid : Str) : Dict Str ℕ × List Str :=
  let paths := expandAmong acc.1.keys pid
  let file := baseNameOf paths
  if isProcess live (paths.filterMap acc.1.get?) then (acc.1, acc.2 ++ [stillRunning file])
  else ((expandAmong acc.1.keys file).foldl Dict.erase acc.1, acc.2 ++ [removing file])

/-- `ls ${PID_DIR}/*.pid` -/
def listPids (pids : Dict Str ℕ) : List Str :=
  sortTexts (pids.keys.filter (globMatch "*.pid".toList))

/-- The process ids that are in use, those of other processes being `others`. -/
def Kb.live (st : Kb) (others : List ℕ) (pid : ℕ) : Bool := pid ∈ st.running.map Scan.pid ++ others

/-- `get_pids`: the files of process ids that are left, and the lines that are printed. -/
def getPids (others : List ℕ) (st : Kb) : Dict Str ℕ × List Str :=
  match listPids st.pids with
  | [] => (st.pids, ["No pids found".toList])
  | listed => (words .newline st.pids.keys (unlines listed)).foldl (checkPid (st.live others))
      (st.pids, [])

/-! ### Runs -/

/-- What happens in `KB_ROOT`. -/
inductive Event
  | dirScan (ifs : Ifs) (target : Str) (isDirectory : Bool) (pid : ℕ)
  /-- A scan writes its JSON file. -/
  | save (pid : ℕ)
  | exit (pid : ℕ)
  /-- `get_pids`, where other processes have the process ids `others`. -/
  | getPids (others : List ℕ)
  deriving DecidableEq, Repr

def step (st : Kb) : Event → Kb
  | .dirScan ifs target isDirectory pid =>
    match dirScan ifs target isDirectory pid st with
    | .error _ => st
    | .ok st' => st'
  | .save pid =>
    match st.running.find? (·.pid = pid) with
    | none => st
    | some s => st.create s.json
  | .exit pid => { st with running := st.running.filter (·.pid ≠ pid) }
  | .getPids others => { st with pids := (getPids others st).1 }

/-- `KB_ROOT` before the first scan. -/
def initial (files : List Str) (nodup : files.Nodup) : Kb := ⟨files, nodup, Dict.empty, []⟩

/-- The process id of a new scan is not that of a running one. -/
def PidsDistinct (st : Kb) : Event → Prop
  | .dirScan _ _ _ pid => pid ∉ st.running.map Scan.pid
  | _ => True

/-- `get_pids` reports every running scan, and no two of them write to one file. -/
structure Tracks (st : Kb) : Prop where
  reported : ∀ others, ∀ s ∈ st.running, stillRunning (pidFile s.target) ∈ (getPids others st).2
  outputs : st.running.Pairwise fun s s' => s.json ≠ s'.json ∧ s.log ≠ s'.log

/-- As patterns, the names of a scan of the directory stand for no other names, nor other names
of process id files for them. -/
structure StandAlone (st : Kb) (target : Str) : Prop where
  log : ∀ n ∈ st.files, standsFor (outputLogFile target) n = true → n = outputLogFile target
  json : ∀ n ∈ st.files, standsFor (outputJsonFile target) n = true → n = outputJsonFile target
  pid : Alone st.pids.keys (pidFile target)

instance (st : Kb) (target : Str) : Decidable (StandAlone st target) :=
  decidable_of_iff
    ((∀ n ∈ st.files, standsFor (outputLogFile target) n = true → n = outputLogFile target) ∧
      (∀ n ∈ st.files, standsFor (outputJsonFile target) n = true → n = outputJsonFile target) ∧
      Alone st.pids.keys (pidFile target))
    ⟨fun h => ⟨h.1, h.2.1, h.2.2⟩, fun h => ⟨h.log, h.json, h.pid⟩⟩

/-- Nor are they the names of a scan that runs. -/
def OwnNames (st : Kb) (target : Str) : Prop :=
  StandAlone st target ∧ ∀ s ∈ st.running, dashed s.target ≠ dashed target

instance (st : Kb) (target : Str) : Decidable (OwnNames st target) :=
  inferInstanceAs (Decidable (_ ∧ _))

/-- The path of a scan that is started meets a condition.  A call is refused without a
directory, and starts no scan when `IFS` splits the path. -/
def Starting (cond : Kb → Str → Prop) (st : Kb) : Event → Prop
  | .dirScan ifs target isDirectory _ =>
    target ≠ [] → isDirectory = true → target.any ifs.splits = false → cond st target
  | _ => True

instance (cond : Kb → Str → Prop) [∀ st target, Decidable (cond st target)] (st : Kb) :
    ∀ e, Decidable (Starting cond st e)
  | .dirScan ifs target isDirectory _ =>
    inferInstanceAs (Decidable (target ≠ [] → isDirectory = true → target.any ifs.splits = false →
      cond st target))
  | .save _ => isTrue trivial
  | .exit _ => isTrue trivial
  | .getPids _ => isTrue trivial

/-- A scan that is started has names of its own. -/
abbrev Separate : Kb → Event → Prop := Starting OwnNames

instance (st : Kb) : ∀ e, Decidable (PidsDistinct st e)
  | .dirScan _ _ _ pid => inferInstanceAs (Decidable (pid ∉ st.running.map Scan.pid))
  | .save _ => isTrue trivial
  | .exit _ => isTrue trivial
  | .getPids _ => isTrue trivial

/-! ### Names -/

section Names

variable {ifs : Ifs} {names : List Str} {ending target : Str}

theorem any_splits_dashed (ifs : Ifs) (target : Str) :
    (dashed target).any ifs.splits = target.any ifs.splits := by
  have hsplits : ifs.splits ∘ (fun c => if c = '/' then '-' else c) = ifs.splits := by
    funext c
    rw [Function.comp_apply]
    split
    · next hc =>
      rw [hc]
      cases ifs <;> decide
    · rfl
  rw [dashed, List.any_map, hsplits]

/-- `IFS` splits the name of a file where it splits the path. -/
theorem any_splits_kbFile (hending : ending.any ifs.splits = false) (target : Str) :
    (kbFile ending target).any ifs.splits = target.any ifs.splits := by
  have hfirst : "sgt-kb_".toList.any ifs.splits = false := by cases ifs <;> decide
  have hfiles : "_files".toList.any ifs.splits = false := by cases ifs <;> decide
  unfold kbFile
  simp only [List.any_append, hfirst, hfiles, hending, any_splits_dashed, Bool.false_or,
    Bool.or_false]

/-- Scans share the name of a file when their paths differ in slashes and hyphens only. -/
theorem kbFile_inj {target' : Str} : kbFile ending target = kbFile ending target' ↔
    dashed target = dashed target' := by
  unfold kbFile
  rw [List.append_cancel_right_eq, List.append_cancel_right_eq, List.append_cancel_left_eq]

theorem kbFile_ne_nil (ending target : Str) : kbFile ending target ≠ [] := by
  unfold kbFile
  exact List.append_ne_nil_of_left_ne_nil (List.append_ne_nil_of_left_ne_nil
    (List.append_ne_nil_of_left_ne_nil (by decide) _) _) _

theorem words_ne_nil (names : List Str) {s : Str} {c : Char} (hc : c ∈ s)
    (h : ifs.splits c = false) : words ifs names s ≠ [] := by
  intro hnil
  rw [words, List.flatMap_eq_nil_iff] at hnil
  obtain ⟨w, hw, -⟩ := exists_mem_fields hc h
  exact expandAmong_ne_nil names w (hnil w hw)

/-- A name that `IFS` splits is more than one word. -/
theorem redirect_of_splits (h : target.any ifs.splits = true) :
    redirect ifs names (kbFile ending target) = none := by
  rw [← any_splits_dashed, List.any_eq_true] at h
  obtain ⟨c, hc, hsplits⟩ := h
  obtain ⟨d, d', hd⟩ := List.append_of_mem hc
  have hname : kbFile ending target =
      ("sgt-kb_".toList ++ d) ++ c :: (d' ++ "_files".toList ++ ending) := by
    unfold kbFile
    simp only [hd, List.append_assoc, List.cons_append]
  have hwords : words ifs names (kbFile ending target) =
      words ifs names ("sgt-kb_".toList ++ d) ++
        words ifs names (d' ++ "_files".toList ++ ending) := by
    rw [words, hname, fields_append_cons hsplits, List.flatMap_append]
    rfl
  have hne : ∀ s : Str, ∀ c ∈ s, ifs.splits c = false → words ifs names s ≠ [] := fun s c hc h =>
    words_ne_nil names hc h
  obtain ⟨w, ws, hw⟩ := List.exists_cons_of_ne_nil
    (hne ("sgt-kb_".toList ++ d) 's' (by simp) (by cases ifs <;> decide))
  obtain ⟨w', ws', hw'⟩ := List.exists_cons_of_ne_nil
    (hne (d' ++ "_files".toList ++ ending) '_' (by simp) (by cases ifs <;> decide))
  rw [redirect, hwords, hw, hw']
  cases ws with
  | nil => rfl
  | cons v vs => rfl

/-- A name that stands for no other one is itself one word. -/
theorem words_of_own (hnodup : names.Nodup) (hending : ending.any ifs.splits = false)
    (h : target.any ifs.splits = false)
    (hown : ∀ n ∈ names, standsFor (kbFile ending target) n = true → n = kbFile ending target) :
    words ifs names (kbFile ending target) = [kbFile ending target] := by
  have hne : kbFile ending target ≠ [] := kbFile_ne_nil ending target
  have hsplits := any_splits_kbFile hending target
  rw [h, List.any_eq_false] at hsplits
  rw [words, fields_eq_singleton hne fun c hc => by simpa using hsplits c hc,
    List.flatMap_singleton, expandAmong_of_alone hnodup hown]

end Names

/-! ### Calls of `dir_scan` -/

/-- `KB_ROOT` with a new scan that has names of its own. -/
def Kb.started (st : Kb) (target : Str) (pid : ℕ) : Kb :=
  { st.create (outputLogFile target) with
    pids := st.pids.set (pidFile target) pid
    running := ⟨pid, target, outputJsonFile target, outputLogFile target⟩ :: st.running }

theorem ending_splits (ifs : Ifs) : ".log".toList.any ifs.splits = false ∧
    ".json".toList.any ifs.splits = false ∧ ".pid".toList.any ifs.splits = false := by
  cases ifs <;> decide

section Calls

variable {st : Kb} {ifs : Ifs} {target : Str} {pid : ℕ}

theorem start_of_splits (h : target.any ifs.splits = true) : st.start ifs target pid = st := by
  rw [Kb.start, outputLogFile, redirect_of_splits h]

theorem writePid_of_splits (h : target.any ifs.splits = true) :
    st.writePid ifs target pid = st := by
  rw [Kb.writePid, pidFile, redirect_of_splits h]

theorem start_of_standAlone (h : target.any ifs.splits = false) (halone : StandAlone st target) :
    st.start ifs target pid = { st.create (outputLogFile target) with
      running := ⟨pid, target, outputJsonFile target, outputLogFile target⟩ :: st.running } := by
  have hlog : words ifs st.files (outputLogFile target) = [outputLogFile target] :=
    words_of_own st.nodup (ending_splits ifs).1 h halone.log
  have hjson : words ifs st.files (outputJsonFile target) = [outputJsonFile target] :=
    words_of_own st.nodup (ending_splits ifs).2.1 h halone.json
  rw [Kb.start, redirect, hlog, hjson]
  rfl

theorem writePid_of_alone (h : target.any ifs.splits = false)
    (halone : Alone st.pids.keys (pidFile target)) :
    st.writePid ifs target pid = { st with pids := st.pids.set (pidFile target) pid } := by
  have hpid : words ifs st.pids.keys (pidFile target) = [pidFile target] :=
    words_of_own st.pids.nodup (ending_splits ifs).2.2 h fun n hn => (halone n hn).1
  rw [Kb.writePid, redirect, hpid]

theorem step_of_refused {isDirectory : Bool} {e : Refusal}
    (h : dirScan ifs target isDirectory pid st = .error e) :
    step st (.dirScan ifs target isDirectory pid) = st := by
  simp only [step, h]

theorem step_of_accepted {isDirectory : Bool} {st' : Kb}
    (h : dirScan ifs target isDirectory pid st = .ok st') :
    step st (.dirScan ifs target isDirectory pid) = st' := by
  simp only [step, h]

/-- A scan whose names stand alone is started. -/
theorem step_of_standAlone (htarget : target ≠ []) (hsplits : target.any ifs.splits = false)
    (halone : StandAlone st target) :
    step st (.dirScan ifs target true pid) = st.started target pid := by
  have hscan : dirScan ifs target true pid st =
      .ok ((st.start ifs target pid).writePid ifs target pid) := by
    rw [dirScan, if_neg htarget]
    rfl
  rw [step_of_accepted hscan, start_of_standAlone hsplits halone]
  exact writePid_of_alone hsplits halone.pid

/-- **A call of `dir_scan` starts a scan with names of its own, or changes nothing.** -/
theorem step_dirScan {isDirectory : Bool} (h : Separate st (.dirScan ifs target isDirectory pid)) :
    step st (.dirScan ifs target isDirectory pid) = st ∨
      target.any ifs.splits = false ∧ OwnNames st target ∧
        step st (.dirScan ifs target isDirectory pid) = st.started target pid := by
  by_cases htarget : target = []
  · left
    apply step_of_refused
    rw [dirScan, if_pos htarget]
  · cases isDirectory with
    | false =>
      left
      apply step_of_refused
      rw [dirScan, if_neg htarget]
      rfl
    | true =>
      cases hsplits : target.any ifs.splits with
      | true =>
        left
        apply step_of_accepted
        rw [dirScan, if_neg htarget, start_of_splits hsplits, writePid_of_splits hsplits]
        rfl
      | false =>
        right
        have hown := h htarget rfl hsplits
        exact ⟨rfl, hown, step_of_standAlone htarget hsplits hown.1⟩

end Calls

/-! ### The loop of `get_pids` -/

section Loop

variable {live : ℕ → Bool}

/-- The loop removes files only. -/
theorem mem_keys_of_checkPid {acc : Dict Str ℕ × List Str} {w k : Str}
    (h : k ∈ (checkPid live acc w).1.keys) : k ∈ acc.1.keys := by
  unfold checkPid at h
  dsimp only at h
  split at h
  · exact h
  · rw [Dict.mem_keys_iff] at h
    obtain ⟨pid, hpid⟩ := h
    rw [Dict.get?_foldl_erase] at hpid
    split at hpid
    · cases hpid
    · exact (Dict.mem_keys_iff _ _).mpr ⟨pid, hpid⟩

theorem mem_keys_of_checkPids {ws : List Str} {acc : Dict Str ℕ × List Str} {k : Str}
    (h : k ∈ (ws.foldl (checkPid live) acc).1.keys) : k ∈ acc.1.keys := by
  induction ws generalizing acc with
  | nil => exact h
  | cons w ws ih => exact mem_keys_of_checkPid (ih h)

/-- Lines that have been printed stay. -/
theorem mem_lines_of_checkPids (ws : List Str) {acc : Dict Str ℕ × List Str} {line : Str}
    (h : line ∈ acc.2) : line ∈ (ws.foldl (checkPid live) acc).2 := by
  induction ws generalizing acc with
  | nil => exact h
  | cons w ws ih =>
    apply ih
    unfold checkPid
    dsimp only
    split
    · exact List.mem_append_left _ h
    · exact List.mem_append_left _ h

theorem baseNameOf_eq_nil_or_mem (ws : List Str) : baseNameOf ws = [] ∨ baseNameOf ws ∈ ws := by
  unfold baseNameOf
  split
  · exact .inr List.mem_cons_self
  · exact .inr List.mem_cons_self
  · exact .inl rfl

variable {names : List Str} {file : Str} {pid : ℕ} {acc : Dict Str ℕ × List Str}

/-- No other name of the directory stands for the file. -/
theorem notMem_expandAmong (keys : List Str) {w : Str} (halone : Alone names file) (hw : w ∈ names)
    (hne : w ≠ file) : file ∉ expandAmong keys w := by
  intro hmem
  rcases mem_expandAmong hmem with heq | ⟨-, hstands⟩
  · exact hne heq.symm
  · exact hne ((halone w hw).2 hstands)

/-- The turn for the file of a process that is there. -/
theorem checkPid_self (halone : Alone names file) (hkeys : ∀ k ∈ acc.1.keys, k ∈ names)
    (hpid : acc.1.get? file = some pid) (hlive : live pid = true) :
    checkPid live acc file = (acc.1, acc.2 ++ [stillRunning file]) := by
  have hself : expandAmong acc.1.keys file = [file] :=
    expandAmong_of_alone acc.1.nodup fun k hk => (halone k (hkeys k hk)).1
  have hcontent : [file].filterMap acc.1.get? = [pid] := by
    rw [List.filterMap_cons_some hpid, List.filterMap_nil]
  unfold checkPid
  rw [hself]
  dsimp only
  rw [hcontent, isProcess, if_pos hlive]
  rfl

/-- The turn for another file. -/
theorem get?_checkPid (hfile : file ≠ []) (halone : Alone names file)
    (hkeys : ∀ k ∈ acc.1.keys, k ∈ names) {w : Str} (hw : w ∈ names) (hne : w ≠ file) :
    (checkPid live acc w).1.get? file = acc.1.get? file := by
  have hpaths := notMem_expandAmong acc.1.keys halone hw hne
  have hremoved : file ∉ expandAmong acc.1.keys (baseNameOf (expandAmong acc.1.keys w)) := by
    rcases baseNameOf_eq_nil_or_mem (expandAmong acc.1.keys w) with hnil | hmem
    · rw [hnil]
      intro hfile'
      exact hfile (List.mem_singleton.mp hfile')
    · have hbase : baseNameOf (expandAmong acc.1.keys w) ≠ file := fun heq => hpaths (heq ▸ hmem)
      refine notMem_expandAmong _ halone ?_ hbase
      rcases mem_expandAmong hmem with heq | ⟨hmem, -⟩
      · rw [heq]
        exact hw
      · exact hkeys _ hmem
  unfold checkPid
  dsimp only
  split
  · rfl
  · rw [Dict.get?_foldl_erase, if_neg hremoved]

/-- **The loop keeps the file of a running process, and reports it.** -/
theorem tracked_checkPids (hfile : file ≠ []) (halone : Alone names file) (hlive : live pid = true)
    {ws : List Str} (hws : ∀ w ∈ ws, w ∈ names) (acc : Dict Str ℕ × List Str)
    (hkeys : ∀ k ∈ acc.1.keys, k ∈ names) (hpid : acc.1.get? file = some pid) :
    (ws.foldl (checkPid live) acc).1.get? file = some pid ∧
      (file ∈ ws → stillRunning file ∈ (ws.foldl (checkPid live) acc).2) := by
  induction ws generalizing acc with
  | nil => exact ⟨hpid, fun hmem => absurd hmem List.not_mem_nil⟩
  | cons w ws ih =>
    rw [List.forall_mem_cons] at hws
    have hkeys' : ∀ k ∈ (checkPid live acc w).1.keys, k ∈ names := fun k hk =>
      hkeys k (mem_keys_of_checkPid hk)
    by_cases hw : w = file
    · subst hw
      have hturn := checkPid_self halone hkeys hpid hlive
      have hpid' : (checkPid live acc w).1.get? w = some pid := by rw [hturn, hpid]
      have hline : stillRunning w ∈ (checkPid live acc w).2 := by
        rw [hturn]
        exact List.mem_append_right _ List.mem_cons_self
      exact ⟨(ih hws.2 _ hkeys' hpid').1, fun _ => mem_lines_of_checkPids ws hline⟩
    · have hpid' : (checkPid live acc w).1.get? file = some pid := by
        rw [get?_checkPid hfile halone hkeys hws.1 hw, hpid]
      obtain ⟨hkept, hreported⟩ := ih hws.2 _ hkeys' hpid'
      exact ⟨hkept, fun hmem => hreported ((List.mem_cons.mp hmem).resolve_left fun h => hw h.symm)⟩

end Loop

/-! ### The invariant -/

/-- **The invariant.**  Each running scan has a process id file of its own, whose name stands
for no other one. -/
structure Tracked (st : Kb) : Prop where
  pid : ∀ s ∈ st.running, st.pids.get? (pidFile s.target) = some s.pid
  outputs : ∀ s ∈ st.running, s.json = outputJsonFile s.target ∧ s.log = outputLogFile s.target
  distinct : st.running.Pairwise fun s s' => dashed s.target ≠ dashed s'.target
  alone : ∀ s ∈ st.running, Alone st.pids.keys (pidFile s.target)
  /-- `ls` prints one name on each line. -/
  lines : ∀ k ∈ st.pids.keys, '\n' ∉ k

section Invariant

variable {st : Kb}

theorem mem_listPids {pids : Dict Str ℕ} {k : Str} :
    k ∈ listPids pids ↔ k ∈ pids.keys ∧ globMatch "*.pid".toList k = true := by
  rw [listPids, sortTexts, List.mem_insertionSort, List.mem_filter]

theorem globMatch_pidFile (target : Str) : globMatch "*.pid".toList (pidFile target) = true := by
  have hhead : (pidFile target).head? ≠ some '.' := by
    unfold pidFile kbFile
    exact fun h => absurd (Option.some.inj h) (by decide)
  unfold pidFile kbFile at hhead ⊢
  exact globMatch_star_append (by decide) hhead

/-- `ls` prints one name on each line. -/
theorem fields_listPids {pids : Dict Str ℕ} (hlines : ∀ k ∈ pids.keys, '\n' ∉ k) :
    fields Ifs.newline.splits (unlines (listPids pids)) = (listPids pids).filter (· ≠ []) := by
  refine fields_unlines (by decide) ?_
  intro s hs c hc
  have hnewline : c ≠ '\n' := fun h => hlines s (mem_listPids.mp hs).1 (h ▸ hc)
  exact decide_eq_false hnewline

/-- The words that the loop goes through are names of files. -/
theorem mem_keys_of_mem_words {pids : Dict Str ℕ} (hlines : ∀ k ∈ pids.keys, '\n' ∉ k) {w : Str}
    (hw : w ∈ words .newline pids.keys (unlines (listPids pids))) : w ∈ pids.keys := by
  rw [words, fields_listPids hlines] at hw
  obtain ⟨k, hk, hw⟩ := List.mem_flatMap.mp hw
  rcases mem_expandAmong hw with rfl | ⟨hmem, -⟩
  · exact (mem_listPids.mp (List.mem_of_mem_filter hk)).1
  · exact hmem

/-- Among them is each file whose name stands for no other one. -/
theorem mem_words_of_alone {pids : Dict Str ℕ} (hlines : ∀ k ∈ pids.keys, '\n' ∉ k) {target : Str}
    (hmem : pidFile target ∈ pids.keys) (halone : Alone pids.keys (pidFile target)) :
    pidFile target ∈ words .newline pids.keys (unlines (listPids pids)) := by
  have hself : expandAmong pids.keys (pidFile target) = [pidFile target] :=
    expandAmong_of_alone pids.nodup fun n hn => (halone n hn).1
  have hne : pidFile target ≠ [] := kbFile_ne_nil _ target
  rw [words, fields_listPids hlines]
  refine List.mem_flatMap.mpr ⟨pidFile target, ?_, ?_⟩
  · exact List.mem_filter.mpr ⟨mem_listPids.mpr ⟨hmem, globMatch_pidFile target⟩,
      decide_eq_true hne⟩
  · rw [hself]
    exact List.mem_cons_self

/-- `get_pids` removes files only. -/
theorem mem_keys_of_getPids {others : List ℕ} {k : Str} (h : k ∈ (getPids others st).1.keys) :
    k ∈ st.pids.keys := by
  unfold getPids at h
  split at h
  · exact h
  · exact mem_keys_of_checkPids h

/-- **`get_pids` reports a running scan and keeps its file.** -/
theorem getPids_of_tracked (h : Tracked st) (others : List ℕ) {s : Scan} (hs : s ∈ st.running) :
    (getPids others st).1.get? (pidFile s.target) = some s.pid ∧
      stillRunning (pidFile s.target) ∈ (getPids others st).2 := by
  have hmem : pidFile s.target ∈ st.pids.keys := (Dict.mem_keys_iff _ _).mpr ⟨s.pid, h.pid s hs⟩
  have hlisted : pidFile s.target ∈ listPids st.pids :=
    mem_listPids.mpr ⟨hmem, globMatch_pidFile s.target⟩
  have hlive : st.live others s.pid = true :=
    decide_eq_true (List.mem_append_left others (List.mem_map_of_mem hs))
  unfold getPids
  split
  · next hnil =>
    rw [hnil] at hlisted
    cases hlisted
  · obtain ⟨hkept, hreported⟩ := tracked_checkPids (kbFile_ne_nil _ s.target) (h.alone s hs) hlive
      (fun w hw => mem_keys_of_mem_words h.lines hw) (st.pids, []) (fun k hk => hk) (h.pid s hs)
    exact ⟨hkept, hreported (mem_words_of_alone h.lines hmem (h.alone s hs))⟩

theorem tracks_of_tracked (h : Tracked st) : Tracks st where
  reported others s hs := (getPids_of_tracked h others hs).2
  outputs := by
    refine h.distinct.imp_of_mem ?_
    intro s s' hs hs' hne
    rw [(h.outputs s hs).1, (h.outputs s' hs').1, (h.outputs s hs).2, (h.outputs s' hs').2]
    exact ⟨fun heq => hne (kbFile_inj.mp heq), fun heq => hne (kbFile_inj.mp heq)⟩

theorem tracked_initial (files : List Str) (nodup : files.Nodup) :
    Tracked (initial files nodup) where
  pid s hs := by cases hs
  outputs s hs := by cases hs
  distinct := .nil
  alone s hs := by cases hs
  lines k hk := by cases hk

theorem newline_notMem_pidFile {ifs : Ifs} {target : Str} (h : target.any ifs.splits = false) :
    '\n' ∉ pidFile target := by
  intro hmem
  have hsplits : ifs.splits '\n' = true := by cases ifs <;> decide
  have hname : (pidFile target).any ifs.splits = false := by
    rw [pidFile, any_splits_kbFile (ending_splits ifs).2.2, h]
  exact absurd hsplits (List.any_eq_false.mp hname _ hmem)

/-- A new scan keeps the invariant. -/
theorem tracked_started (h : Tracked st) {target : Str} (hown : OwnNames st target)
    (hline : '\n' ∉ pidFile target) (pid : ℕ) : Tracked (st.started target pid) where
  pid s hs := by
    show (st.pids.set (pidFile target) pid).get? (pidFile s.target) = some s.pid
    rcases List.mem_cons.mp hs with rfl | hs
    · exact Dict.get?_set_self _ _ _
    · have hne : pidFile s.target ≠ pidFile target := fun heq => hown.2 s hs (kbFile_inj.mp heq)
      rw [Dict.get?_set_of_ne _ hne, h.pid s hs]
  outputs s hs := by
    rcases List.mem_cons.mp hs with rfl | hs
    · exact ⟨rfl, rfl⟩
    · exact h.outputs s hs
  distinct := List.pairwise_cons.mpr ⟨fun s hs heq => hown.2 s hs heq.symm, h.distinct⟩
  alone s hs k hk := by
    have hk' := (Dict.mem_keys_set _ _ _ _).mp hk
    rcases List.mem_cons.mp hs with rfl | hs
    · rcases hk' with rfl | hk'
      · exact ⟨fun _ => rfl, fun _ => rfl⟩
      · exact hown.1.pid k hk'
    · rcases hk' with rfl | hk'
      · -- the names of the two scans do not stand for each other
        have hmem : pidFile s.target ∈ st.pids.keys :=
          (Dict.mem_keys_iff _ _).mpr ⟨s.pid, h.pid s hs⟩
        obtain ⟨hto, hfrom⟩ := hown.1.pid _ hmem
        exact ⟨fun hstands => (hfrom hstands).symm, fun hstands => (hto hstands).symm⟩
      · exact h.alone s hs k hk'
  lines k hk := by
    rcases (Dict.mem_keys_set _ _ _ _).mp hk with rfl | hk
    · exact hline
    · exact h.lines k hk

/-- **One event keeps the invariant.** -/
theorem tracked_step (h : Tracked st) {e : Event} (he : Separate st e) : Tracked (step st e) := by
  cases e with
  | dirScan ifs target isDirectory pid =>
    rcases step_dirScan he with hstep | ⟨hsplits, hown, hstep⟩
    · rw [hstep]
      exact h
    · rw [hstep]
      exact tracked_started h hown (newline_notMem_pidFile hsplits) pid
  | save pid =>
    cases hfind : st.running.find? (·.pid = pid) with
    | none =>
      simp only [step, hfind]
      exact h
    | some s =>
      simp only [step, hfind]
      exact ⟨h.pid, h.outputs, h.distinct, h.alone, h.lines⟩
  | exit pid =>
    have hrunning : ∀ s ∈ st.running.filter (·.pid ≠ pid), s ∈ st.running :=
      fun s => List.mem_of_mem_filter
    exact ⟨fun s hs => h.pid s (hrunning s hs), fun s hs => h.outputs s (hrunning s hs),
      h.distinct.sublist List.filter_sublist, fun s hs => h.alone s (hrunning s hs), h.lines⟩
  | getPids others =>
    exact ⟨fun s hs => (getPids_of_tracked h others hs).1, h.outputs, h.distinct,
      fun s hs k hk => h.alone s hs k (mem_keys_of_getPids hk),
      fun k hk => h.lines k (mem_keys_of_getPids hk)⟩

end Invariant

/-! ### Running scans are tracked -/

/-- Conversely, when all scans are tracked and the names stand alone, new scans have names of
their own. -/
theorem separate_of_tracks {st : Kb} (hst : Tracked st) {run : List Event}
    (hrun : Meets step (Starting StandAlone) st run)
    (h : ∀ done, done <+: run → Tracks (done.foldl step st)) : Meets step Separate st run := by
  induction run generalizing st with
  | nil => trivial
  | cons e run ih =>
    have hsep : Separate st e := by
      cases e with
      | dirScan ifs target isDirectory pid =>
        intro htarget hdir hsplits
        have halone := hrun.1 htarget hdir hsplits
        refine ⟨halone, fun s hs heq => ?_⟩
        subst hdir
        have houtputs := (h _ (List.prefix_append [_] run)).outputs
        rw [List.foldl_cons, List.foldl_nil, step_of_standAlone htarget hsplits halone] at houtputs
        have hlog := ((List.pairwise_cons.mp houtputs).1 s hs).2
        rw [(hst.outputs s hs).2] at hlog
        exact hlog (kbFile_inj.mpr heq.symm)
      | save pid => trivial
      | exit pid => trivial
      | getPids others => trivial
    refine ⟨hsep, ih (tracked_step hst hsep) hrun.2 fun done hdone => ?_⟩
    exact h (e :: done) (List.cons_prefix_cons.mpr ⟨rfl, hdone⟩)

/-- `/a` is scanned again while its first scan runs, and the second scan is over first. -/
def scannedTwice : List Event :=
  [.dirScan .blanks "/a".toList true 1, .dirScan .blanks "/a".toList true 2, .exit 2]

end SgtKb
end Dfuser
