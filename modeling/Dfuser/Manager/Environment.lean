import Dfuser.Lib.Lines
import Dfuser.Lib.Overwrite
import Dfuser.Lib.Regex
import Dfuser.Manager.Frame

/-!
# The variables of the scripts

`dfman env`: `show`, `check` and `filter` are about `PATH`, and `restore` is about the
`PATH` that the scripts set.  The functions pass results on as what they print, and nothing
they print or are given is quoted.

`restore` goes through the files that `get_dfuser_files` prints.  That function prints
nothing, for it collects the scripts in an array.

The shell splits words at blanks: `IFS` is not set, or has the value that a shell starts
with.

## Main definitions

* `splitCurrentPath`, `checkInPath`, `filterOutOfPath` — the functions about `PATH`.
* `getFileEnvSet`, `getFileEnvValue`, `restorePathFromDfuserFiles` — the functions about
  scripts.
* `dfmanEnv` — the command.
* `pathComponents` — what is in the paths that the scripts export.
* `Restores` — these are printed, and `IFS` stays as it is.

## Main results

* `restorePath_eq` — nothing but an empty line is ever printed.
* `restores_iff` — **when that is right.**
-/

namespace Dfuser
namespace Manager

open FileSystem

/-- What is left open of the shell and the tools. -/
structure Tools where
  /-- What `echo -e` makes of backslashes. -/
  interpret : Str → Str
  /-- A text matches an extended pattern. -/
  extended : Str → Str → Bool
  /-- `cat` with options, or of what is typed. -/
  cat : FileSystem → Path → List Str → Str

/-- What a command prints, its exit code, and the value of `IFS` after it. -/
structure Outcome where
  printed : Str
  code : ℕ
  ifs : Option Str

section

variable (T : Tools) (S : Setting)

/-! ### `PATH` -/

/-- `[[ s == $pat ]]` -/
def matchesPattern (pat s : Str) : Bool :=
  if hasExtendedPattern pat then T.extended pat s else fnmatch pat s

/-- `tr ":" "\n"` -/
def colonsToLines (s : Str) : Str := s.map fun c => if c = ':' then '\n' else c

/-- `split_current_path` -/
def splitCurrentPath (sh : Shell) : Str := colonsToLines (echo T.interpret (words S sh sh.path))

/-- `show_path` -/
def showPath (sh : Shell) : Str := "Current PATH: \n".toList ++ splitCurrentPath T S sh

/-- `check_in_path` -/
def checkInPath (sh : Shell) (item : Str) : Str × ℕ :=
  if (words S sh (chomp (splitCurrentPath T S sh))).any (matchesPattern T item) then
    ("Found ".toList ++ item ++ " in PATH\n".toList, 0)
  else ("Did not find ".toList ++ item ++ " in PATH\n".toList, 1)

/-- The loop of `filter_out_of_path`. -/
def newPath (item : Str) (ps : List Str) : Str :=
  ps.foldl (fun path p => if matchesPattern T (item ++ ['*']) p then path else path ++ ':' :: p) []

/-- `filter_out_of_path` -/
def filterOutOfPath (sh : Shell) (item : Str) : Str :=
  echo T.interpret (words S sh (newPath T item (words S sh (chomp (splitCurrentPath T S sh)))))

/-! ### The scripts -/

/-- `cat words` -/
def cat (sh : Shell) (ws : List Str) : Str :=
  if ws = [] ∨ ws.any (fun w => w.head? = some '-') then T.cat sh.fs S.cwd ws
  else ws.flatMap fun w => ((sh.fs.resolve S.cwd w).map (contentAt sh.fs)).getD []

/-- `^export [a-zA-Z0-9_]+=` -/
def exportPattern : Grouped Char where
  before := Regex.word "export ".toList .eps
  group := .plus true (.char isNameChar)
  optional := false
  after := Regex.word "=".toList (.star true (.char fun _ => true))

/-- `^export $var=(.*)`, for a name. -/
def valuePattern (var : Str) : Grouped Char where
  before := Regex.word ("export ".toList ++ var ++ "=".toList) .eps
  group := .star true (.char fun _ => true)
  optional := false
  after := .eps

/-- `grep -E` for a pattern at the start of lines, and `sed -E` putting the group in the
place of what is matched. -/
def grepSed (pattern : Grouped Char) (s : Str) : List Str :=
  ((textLines s).filter fun line => (pattern.capture line).isSome).filterMap pattern.replace

/-- `get_file_env_set` -/
def getFileEnvSet (sh : Shell) (file : Str) : Str :=
  if sh.fs.pathExists S.cwd file then
    unlines (sortUniq (grepSed exportPattern (cat T S sh (words S sh file))))
  else "File not found: ".toList ++ file ++ ['\n']

/-- `get_file_env_value` -/
def getFileEnvValue (sh : Shell) (file var : Str) : Str :=
  if sh.fs.pathExists S.cwd file then
    unlines (grepSed (valuePattern var) (cat T S sh (words S sh file)))
  else "File not found: ".toList ++ file ++ ['\n']

/-- The first word of an expansion, as an argument of a function. -/
def argument (sh : Shell) (s : Str) : Str := (words S sh s).headD []

/-- The inner loop of `restore_path_from_dfuser_files`, over the variables of a script. -/
def addValues (sh : Shell) (f : Str) (path : Str) (vars : List Str) : Str :=
  vars.foldl (fun path var =>
    if var = "PATH".toList then
      let args := words S sh f ++ words S sh var
      path ++ ':' :: chomp (getFileEnvValue T S sh (args.getD 0 []) (args.getD 1 []))
    else path) path

/-- The outer loop, over the files. -/
def addFiles (sh : Shell) (fs : List Str) : Str :=
  fs.foldl (fun path f =>
    addValues T S sh f path (words S sh (chomp (getFileEnvSet T S sh (argument S sh f))))) []

/-- The words of an unquoted expansion where `IFS` is a blank. -/
def wordsAtBlanks (sh : Shell) (s : Str) : List Str :=
  (fields (fun c => c = ' ') s).flatMap (glob sh.fs S.cwd)

/-- `grep -v`, for the lines without a text. -/
def grepWithout (text : Str) (ls : List Str) : List Str := ls.filter fun l => ¬ text <:+: l

/-- `restore_path_from_dfuser_files`, where `IFS` has the value `ifs`. -/
def restorePathFromDfuserFiles (sh : Shell) (ifs : Option Str) : Outcome :=
  -- the function runs in a shell of its own, and only what it prints comes back
  let files := chomp (unlines (getDfuserFiles S { sh with out := [] }).last.out)
  let tempPath := addFiles T S sh (words S sh files)
  let tempPath := chomp (unlines ((textLines (colonsToLines
    (echo T.interpret (words S sh tempPath)))).filter (· ≠ [])))
  let tempPath := chomp (unlines ((textLines (echo T.interpret (words S sh tempPath))).map
    (·.filter (· ≠ '"'))))
  let ifsSave := ifs.getD []
  -- `IFS` is a blank from here on
  let pathItems := (wordsAtBlanks S sh tempPath).flatMap (wordsAtBlanks S sh)
  let sorted :=
    sortUniq (textLines ((echo T.interpret pathItems).map fun c => if c = ' ' then '\n' else c))
  let pathItems := wordsAtBlanks S sh (chomp (unlines (grepWithout "$PATH".toList sorted)))
  let printed := echo T.interpret (pathItems.flatMap (wordsAtBlanks S sh))
  ⟨printed, 0, some ifsSave⟩

/-- `dfman_env`, on its arguments. -/
def dfmanEnv (sh : Shell) (ifs : Option Str) (args : List Str) : Outcome :=
  let item := args.getD 1 []
  if args.head? = some "show".toList then ⟨showPath T S sh, 0, ifs⟩
  else if args.head? = some "check".toList then
    let r := checkInPath T S sh (argument S sh item)
    ⟨r.1, r.2, ifs⟩
  else if args.head? = some "filter".toList then
    if item = [] then ⟨"Usage: dfman env filter <path>\n".toList, 1, ifs⟩
    else ⟨filterOutOfPath T S sh (argument S sh item), 0, ifs⟩
  else if args.head? = some "restore".toList then restorePathFromDfuserFiles T S sh ifs
  else ⟨"Usage: dfman env [show|check|filter|restore]\n".toList, 0, ifs⟩

/-- `dfman env a b`: the arguments are passed on unquoted. -/
def dfmanEnvCommand (sh : Shell) (ifs : Option Str) (a b : Str) : Outcome :=
  dfmanEnv T S sh ifs (words S sh a ++ words S sh b)

/-! ### What should be restored -/

/-- The texts of the scripts. -/
def scriptTexts (fs : FileSystem) : List Str :=
  match fs.resolve S.cwd S.scriptsDir with
  | none => []
  | some d => ((fs.namesIn d).filter fun n => ".sh".toList <:+ n).filterMap fun n =>
    ((fs.resolve d n).bind fs.obj).bind fun o =>
      match o with
      | .file c => some c
      | _ => none

/-- The components of the paths that a script exports, without quotes, but for those that
are empty or mention `$PATH`. -/
def exportedComponents (script : Str) : List Str :=
  let values := (textLines script).filterMap fun line =>
    if "export PATH=".toList <+: line then some (line.drop "export PATH=".length) else none
  (values.flatMap fun v => (v.splitOn ':').map (·.filter (· ≠ '"'))).filter fun c =>
    c ≠ [] ∧ ¬ "$PATH".toList <:+: c

/-- What is in the paths that the scripts export. -/
def pathComponents (fs : FileSystem) : List Str := (scriptTexts S fs).flatMap exportedComponents

/-- `dfman env restore` prints every component once, and leaves `IFS` as it is. -/
def Restores (sh : Shell) (ifs : Option Str) : Prop :=
  (∃ items : List Str, items.Nodup ∧ (∀ c, c ∈ items ↔ c ∈ pathComponents S sh.fs) ∧
      (dfmanEnvCommand T S sh ifs "restore".toList []).printed = [' '].intercalate items ++
        ['\n']) ∧
    (dfmanEnvCommand T S sh ifs "restore".toList []).ifs = ifs

end

/-! ### What is printed -/

section

variable {T : Tools} {S : Setting}

/-- Collecting the scripts prints nothing. -/
theorem out_addDfuserFiles (sh : Shell) (fs : List Str) :
    (addDfuserFiles S sh fs).last.out = sh.out := by
  have hassign : ∀ sh x key value, (assign S sh x key value).last.out = sh.out := by
    intro sh x key value
    unfold assign
    split <;> rfl
  induction fs generalizing sh with
  | nil => rfl
  | cons f fs ih =>
    rw [addDfuserFiles]
    split
    · rfl
    · exact ih sh
    · exact last_bind (P := fun sh' => sh'.out = sh.out) (hassign sh _ _ _)
        fun sh' h => (ih sh').trans h

@[simp] theorem words_nil (sh : Shell) : words S sh [] = [] := expandWords_nil _ _

@[simp] theorem wordsAtBlanks_nil (sh : Shell) : wordsAtBlanks S sh [] = [] := by
  rw [wordsAtBlanks, fields_nil, List.flatMap_nil]

/-- Without files there is nothing to collect, and an empty line is printed. -/
theorem restorePath_eq (sh : Shell) (ifs : Option Str) :
    restorePathFromDfuserFiles T S sh ifs = ⟨['\n'], 0, some (ifs.getD [])⟩ := by
  have hfiles : chomp (unlines (getDfuserFiles S { sh with out := [] }).last.out) = [] := by
    rw [getDfuserFiles, out_addDfuserFiles]
    rfl
  have hecho : echo T.interpret [] = ['\n'] := rfl
  have hpath : chomp (unlines ((textLines (colonsToLines ['\n'])).filter (· ≠ []))) = [] := rfl
  have hquotes : chomp (unlines ((textLines ['\n']).map (·.filter (· ≠ '"')))) = [] := rfl
  have hsorted : chomp (unlines (grepWithout "$PATH".toList (sortUniq (textLines
      ((['\n'] : Str).map fun c => if c = ' ' then '\n' else c))))) = [] := by
    decide
  simp only [restorePathFromDfuserFiles, hfiles, words_nil, addFiles, List.foldl_nil, hecho, hpath,
    hquotes, wordsAtBlanks_nil, List.flatMap_nil, hsorted]

/-- `dfman env restore` -/
theorem dfmanEnvCommand_restore (sh : Shell) (ifs : Option Str) :
    dfmanEnvCommand T S sh ifs "restore".toList [] = ⟨['\n'], 0, some (ifs.getD [])⟩ := by
  rw [dfmanEnvCommand, words_of_literal sh (by decide) (by decide), words_nil, dfmanEnv]
  exact restorePath_eq sh ifs

theorem ne_nil_of_mem_pathComponents {fs : FileSystem} {c : Str} (h : c ∈ pathComponents S fs) :
    c ≠ [] := by
  obtain ⟨script, -, hc⟩ := List.mem_flatMap.mp h
  exact (of_decide_eq_true (List.mem_filter.mp hc).2).1

/-- What an empty line lists. -/
theorem eq_nil_of_printed {items : List Str} (hne : ∀ c ∈ items, c ≠ [])
    (h : ['\n'] = [' '].intercalate items ++ ['\n']) : items = [] := by
  cases items with
  | nil => rfl
  | cons c items =>
    have hlength := congrArg List.length h
    rw [Joined.intercalate_cons_eq, List.append_assoc, List.length_append,
      List.length_append] at hlength
    have hpos : 0 < c.length := List.length_pos_iff.mpr (hne c List.mem_cons_self)
    simp only [List.length_singleton] at hlength
    omega

/-- **The components are restored exactly if there are none**, and `IFS` is set. -/
theorem restores_iff (sh : Shell) (ifs : Option Str) :
    Restores T S sh ifs ↔ pathComponents S sh.fs = [] ∧ ifs.isSome = true := by
  rw [Restores, dfmanEnvCommand_restore]
  constructor
  · rintro ⟨⟨items, -, hitems, hprinted⟩, hifs⟩
    have hnil : items = [] := eq_nil_of_printed
      (fun c hc => ne_nil_of_mem_pathComponents ((hitems c).mp hc)) hprinted
    refine ⟨?_, by rw [← hifs]; rfl⟩
    rw [List.eq_nil_iff_forall_not_mem]
    intro c hc
    rw [← hitems, hnil] at hc
    cases hc
  · rintro ⟨hnone, hifs⟩
    obtain ⟨v, rfl⟩ := Option.isSome_iff_exists.mp hifs
    refine ⟨⟨[], List.nodup_nil, ?_, rfl⟩, rfl⟩
    intro c
    rw [hnone]

end

/-! ### A script with a path -/

/-- One script, which puts a directory in front of `PATH`. -/
def exportingHome : FileSystem :=
  (((FileSystem.empty.add [] "h".toList .dir).add ["h".toList] ".dfuser".toList .dir).add
    smallDir "scripts".toList .dir).add (smallDir ++ ["scripts".toList]) "a.sh".toList
      (.file "export PATH=\"/opt/x/bin\":$PATH\n".toList)

/-- Tools that do nothing special. -/
def plainTools : Tools := ⟨id, fun _ _ => false, fun _ _ _ => []⟩

/-- The directory is not printed. -/
theorem not_restores :
    ¬ Restores plainTools smallSetting ⟨exportingHome, Vars.empty, "/bin".toList, []⟩
    (some " \t\n".toList) := by
  rintro ⟨⟨items, -, hitems, hprinted⟩, -⟩
  rw [dfmanEnvCommand_restore] at hprinted
  have hmem : "/opt/x/bin".toList ∈ pathComponents smallSetting exportingHome := by decide +kernel
  have hnil : items = [] := eq_nil_of_printed
    (fun c hc => ne_nil_of_mem_pathComponents ((hitems c).mp hc)) hprinted
  have hlisted := (hitems _).mpr hmem
  rw [hnil] at hlisted
  cases hlisted

end Manager
end Dfuser
