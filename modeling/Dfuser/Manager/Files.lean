import Dfuser.Lib.Coreutils
import Dfuser.Lib.Variables

/-!
# The script manager

`.dfuser_man.sh`, the part that manages the scripts under `$HOME/.dfuser`.  The
scripts live in `scripts/`; one is enabled by a symbolic link to it in
`$HOME/.dfuser` itself.  The shell keeps two associative arrays: `dfuser_files`, the
scripts by their file names, and `dfuser_files_enabled`, the enabled ones.

The file is sourced by every new shell, and by `reload_dfman` in a running one.
Commands do not look at the exit codes of the tools they run; an error of the shell
itself abandons the command at the prompt, with what it has done so far.

Nothing printed is modelled but the messages of `enable` and `disable` and those of
the start, and the check for updates at the end of the file has a module of its own.

## Main definitions

* `Setting` — what a shell is started with.
* `Shell` — files, variables, `PATH` and output.
* `getDfuserFiles`, `enableDfuserFile`, `disableDfuserFile`, `initializeDfuserFiles`,
  `dfmanDfuser`, `sourceDfuserMan`, `reloadDfman` — the functions of the script.
* `UserCommand`, `step`, `run` — `dfman user` commands at the prompt.
-/

namespace Dfuser
namespace Manager

open FileSystem

/-- What a shell is started with: the tools, what `bash` makes of subscripts, the
working directory, and a home directory that is an absolute path and one word. -/
structure Setting where
  opts : Options
  sub : Subscripts
  cwd : Path
  home : Str
  home_absolute : home = [] ∨ home.head? = some '/'
  home_literal : Literal home

namespace Setting

variable (S : Setting)

/-- `DFBIN_DIR` -/
def dfbinDir : Str := child S.home ".dfbin".toList

/-- `DFUSER_DIR` -/
def dfuserDir : Str := child S.home ".dfuser".toList

/-- `DFUSER_SCRIPTS_DIR` -/
def scriptsDir : Str := child S.dfuserDir "scripts".toList

/-- `DFUSER_TEMPLATE_DIR` -/
def templateDir : Str := child S.dfuserDir "templates".toList

end Setting

/-- The state of a shell. -/
structure Shell where
  fs : FileSystem
  vars : Vars
  /-- `PATH` -/
  path : Str
  /-- The lines printed so far. -/
  out : List Str

/-- The state after a command; an error is an abandoned command. -/
abbrev Result := Except Shell Shell

/-- The state a command ends in, finished or abandoned. -/
def Result.last : Result → Shell
  | .ok sh => sh
  | .error sh => sh

/-- The state at the next prompt. -/
def Result.prompt (r : Result) : Shell := { r.last with vars := r.last.vars.toTop }

/-- Print a line. -/
def Shell.echo (sh : Shell) (line : Str) : Shell := { sh with out := sh.out ++ [line] }

/-- `dfuser_files` -/
def dfuserFiles : Str := "dfuser_files".toList

/-- `dfuser_files_enabled` -/
def dfuserFilesEnabled : Str := "dfuser_files_enabled".toList

/-- `dfbin_files` -/
def dfbinFiles : Str := "dfbin_files".toList

/-- `dfbin_files_enabled` -/
def dfbinFilesEnabled : Str := "dfbin_files_enabled".toList

section

variable (S : Setting)

/-- The words an unquoted text comes to. -/
def words (sh : Shell) (text : Str) : List Str := expandWords sh.fs S.cwd text

/-- Assign an element, or abandon the command. -/
def assign (sh : Shell) (x key value : Str) : Result :=
  match sh.vars.assign S.sub x key value with
  | some vars => .ok { sh with vars := vars }
  | none => .error sh

/-! ### The functions -/

/-- `find $DFUSER_SCRIPTS_DIR -maxdepth 1 -name "*.sh" | sort | uniq` -/
def scriptFiles (sh : Shell) : List Str :=
  sortUniq (find sh.fs S.cwd (words S sh S.scriptsDir) (Found.isNamed "*.sh".toList))

/-- The loop of `get_dfuser_files`. -/
def addDfuserFiles : Shell → List Str → Result
  | sh, [] => .ok sh
  | sh, f :: fs =>
    let fn := basename S.opts (words S sh f)
    match sh.vars.isSet S.sub dfuserFiles fn with
    | none => .error sh
    | some true => addDfuserFiles sh fs
    | some false => (assign S sh dfuserFiles fn f).bind fun sh => addDfuserFiles sh fs

/-- `get_dfuser_files` -/
def getDfuserFiles (sh : Shell) : Result :=
  addDfuserFiles S sh (words S sh (unlines (scriptFiles S sh)))

/-- `show_dfuser_files`, without the table it prints. -/
def showDfuserFiles (sh : Shell) : Result := getDfuserFiles S sh

/-- The operands of `ln -s ${dfuser_files[$key]} $DFUSER_DIR/$key`. -/
def lnOperands (sh : Shell) (f key : Str) : List Str :=
  words S sh f ++ words S sh (child S.dfuserDir key)

/-- `enable_dfuser_file` -/
def enableDfuserFile (sh : Shell) (key : Str) : Result :=
  match sh.vars.element S.sub dfuserFiles key with
  | none => .error sh
  | some f =>
    if sh.fs.pathExists S.cwd f then
      let sh := sh.echo ("⚡ Enabling ".toList ++ key)
      -- nothing depends on whether `ln` succeeds
      let sh := { sh with fs := ln S.opts sh.fs S.cwd (lnOperands S sh f key) }
      assign S sh dfuserFilesEnabled key f
    else .ok (sh.echo ("File not found: ".toList ++ f))

/-- The operands of `rm $DFUSER_DIR/$key`. -/
def rmOperands (sh : Shell) (key : Str) : List Str := words S sh (child S.dfuserDir key)

/-- The word `dfuser_files_enabled[$key]`. -/
def unsetText (key : Str) : Str := dfuserFilesEnabled ++ '[' :: key ++ [']']

/-- `unset`, word by word. -/
def unsetWords : Shell → List Str → Result
  | sh, [] => .ok sh
  | sh, w :: ws =>
    match sh.vars.unsetWord S.sub w with
    | some vars => unsetWords { sh with vars := vars } ws
    | none => .error sh

/-- `disable_dfuser_file` -/
def disableDfuserFile (sh : Shell) (key : Str) : Result :=
  match sh.vars.element S.sub dfuserFiles key with
  | none => .error sh
  | some f =>
    if sh.fs.pathExists S.cwd f then
      let sh := sh.echo ("Disabling ".toList ++ key)
      -- nothing asks what it is that `rm` removes
      let sh := { sh with fs := rm S.opts sh.fs S.cwd (rmOperands S sh key) }
      unsetWords S sh (words S sh (unsetText key))
    else .ok (sh.echo ("File not found: ".toList ++ f))

/-- `find $DFUSER_DIR -type l` -/
def linkFiles (sh : Shell) : List Str :=
  find sh.fs S.cwd (words S sh S.dfuserDir) Found.isLink

/-- The loop of `initialize_dfuser_files`. -/
def addEnabled : Shell → List Str → Result
  | sh, [] => .ok sh
  | sh, f :: fs =>
    let fn := basename S.opts (words S sh f)
    (assign S sh dfuserFilesEnabled fn (readlink S.opts sh.fs S.cwd (words S sh f))).bind fun sh =>
      addEnabled sh fs

/-- `initialize_dfuser_files` -/
def initializeDfuserFiles (sh : Shell) : Result :=
  (getDfuserFiles S sh).bind fun sh => addEnabled S sh (words S sh (unlines (linkFiles S sh)))

/-- `dfman_dfuser`, on its arguments. -/
def dfmanDfuser (sh : Shell) (args : List Str) : Result :=
  -- `shift; enable_dfuser_file $1`: the argument is expanded once more
  let key := ((words S sh (args.getD 1 [])).head?).getD []
  if args.head? = some "show".toList then showDfuserFiles S sh
  else if args.head? = some "enable".toList then enableDfuserFile S sh key
  else if args.head? = some "disable".toList then disableDfuserFile S sh key
  else if args.head? = some "active".toList then .ok sh
  else .ok (sh.echo "Usage: dfman user [show|enable|disable|active]".toList)

/-- `dfman user a b`: the arguments are passed on unquoted. -/
def dfmanUser (sh : Shell) (a b : Str) : Result := dfmanDfuser S sh (words S sh a ++ words S sh b)

/-! ### Sourcing the file -/

/-- `if ! [[ -d dir ]]; then echo message; mkdir dir; fi` -/
def ensureDir (message dir : Str) (sh : Shell) : Shell :=
  if sh.fs.isDir S.cwd dir then sh
  else
    let sh := sh.echo message
    { sh with fs := mkdir sh.fs S.cwd (words S sh dir) }

/-- The directories the file makes sure of. -/
def ensureDirs (sh : Shell) : Shell :=
  let sh := ensureDir S "Creating the dfuser template directory".toList S.templateDir sh
  let sh := ensureDir S "Creating the dfuser directory".toList S.dfuserDir sh
  ensureDir S "Creating the dfbin directory".toList S.dfbinDir sh

/-- The arrays the file declares. -/
def declareArrays (vars : Vars) : Vars :=
  (((vars.declareAssoc dfuserFiles).declareAssoc dfuserFilesEnabled).declareAssoc
    dfbinFiles).declareAssoc dfbinFilesEnabled

/-- `source .dfuser_man.sh` -/
def sourceDfuserMan (sh : Shell) : Result :=
  -- `PATH` grows every time the file is sourced
  let sh := { sh with path := sh.path ++ ':' :: child S.dfuserDir "bin".toList }
  let sh := ensureDirs S sh
  initializeDfuserFiles S { sh with vars := declareArrays sh.vars }

/-- A new shell, over the files `fs` and with the `PATH` it gets from outside. -/
def freshShell (fs : FileSystem) (path : Str) : Shell :=
  (sourceDfuserMan S ⟨fs, Vars.empty, path, []⟩).prompt

/-- `reload_dfman` -/
def reloadDfman (sh : Shell) : Result :=
  let vars := sh.vars.push
  let vars := (((vars.unset dfuserFiles).unset dfuserFilesEnabled).unset dfbinFiles).unset
    dfbinFilesEnabled
  -- the script unsets the first two once more
  let sh := { sh with vars := (vars.unset dfuserFiles).unset dfuserFilesEnabled }
  if sh.fs.pathExists S.cwd (child S.dfuserDir ".dfuser_man.sh".toList) then sourceDfuserMan S sh
  else .ok sh

/-! ### Commands at the prompt -/

/-- A `dfman user` command at the prompt. -/
inductive UserCommand
  | show
  | enable (k : Str)
  | disable (k : Str)

/-- The shell after a command. -/
def step (sh : Shell) : UserCommand → Shell
  | .show => (dfmanUser S sh "show".toList []).prompt
  | .enable k => (dfmanUser S sh "enable".toList k).prompt
  | .disable k => (dfmanUser S sh "disable".toList k).prompt

/-- The shell after some commands. -/
def run (sh : Shell) (cmds : List UserCommand) : Shell := cmds.foldl (step S) sh

/-- The name an argument of `enable` or `disable` comes to: it is expanded twice, and
the first word is taken each time. -/
def keyOf (sh : Shell) (k : Str) : Str :=
  ((words S sh (((words S sh k).head?).getD [])).head?).getD []

end

/-! ### A small home directory -/

/-- A shell with home `/h`, started in the root directory.  The words of these
examples hold no options, and their subscripts nothing to expand or to compute. -/
def smallSetting : Setting where
  opts := ⟨fun _ => [], fun _ _ _ => [], fun fs _ _ => fs, fun fs _ _ => fs⟩
  sub := ⟨fun s => if s = [] then none else some s, fun _ h => if_neg h.1, fun _ => none⟩
  cwd := []
  home := "/h".toList
  home_absolute := Or.inr rfl
  home_literal := by decide

/-- The path of `$DFUSER_DIR` there. -/
def smallDir : Path := ["h".toList, ".dfuser".toList]

/-- One script, `a.sh`, and something of that name in `$DFUSER_DIR`. -/
def smallHome (o : Obj) : FileSystem :=
  ((((FileSystem.empty.add [] "h".toList .dir).add ["h".toList] ".dfuser".toList .dir).add
    smallDir "scripts".toList .dir).add (smallDir ++ ["scripts".toList]) "a.sh".toList
      (.file "echo".toList)).add smallDir "a.sh".toList o

end Manager
end Dfuser
