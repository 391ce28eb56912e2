import Dfuser.Lib.Overwrite

/-!
# The dotfiles configurator

`scripts/bash/dfconfig` links the dotfiles of a repository into a home directory, removes
them again, backs up what is there, and keeps the user's name and password in `.userrc`.
Its functions are lists of commands; which of them are executed depends on the files, by
the tests and by the exit codes that `&&` looks at.

`$HOME` and `$DOTFILES_BASE` stand in the commands unquoted.  Both are taken to be one
word each, so that every operand is the one word it is written as.  `DOTFILES_BASE` is
what `pwd` prints, and so has no `.` and no `..` in it.

What `env` and `sed` print is a text like any other here, and so are the values the user
types.  The shell that is started at the end is left out.

## Main definitions

* `Setting`, `dflist` — the directories, and the names of the dotfiles.
* `Command`, `Command.exec` — the commands.
* `writeUserConfigFile`, `addTemplates`, `setUserPath`, `writeGitconfig`, `setLinks`,
  `backupLinks`, `removeLinks` — the functions of the script.
* `Operation`, `Operation.script`, `commands` — the options, and what a sequence of calls
  executes.
-/

namespace Dfuser
namespace Dotfiles

open FileSystem

/-- What the script is called with. -/
structure Setting where
  cwd : Path
  home : Str
  /-- `DOTFILES_BASE` -/
  dotfilesBase : Str
  /-- `$(whoami)` -/
  whoami : Str
  home_absolute : home = [] ∨ home.head? = some '/'
  home_literal : Literal home
  base_absolute : dotfilesBase = [] ∨ dotfilesBase.head? = some '/'
  base_literal : Literal dotfilesBase
  base_names : ∀ c ∈ fields (· = '/') dotfilesBase, ValidName c

/-- `dflist` -/
def dflist : List Str :=
  [".ackrc", ".aliases.sh", ".autotest", ".bash_functions.sh", ".bash_logout", ".bashrc",
    ".dircolorsrc", ".emacs", ".emacs-lisp", ".gemrc", ".getmail", ".gitconfig", ".gitmessage",
    ".githelpers", ".gitmodules", ".hgrc", ".minttyrc", ".mutt", ".offlineimap.py",
    ".offlineimaprc", ".ps1_components.sh", ".rvmrc", ".screenrc", ".tmux.conf", ".vim", ".vimrc",
    ".zprofile", ".zsh", ".zshenv", ".zshrc", ".dfbin"].map String.toList

/-- What `date +%Y%m%d%H%M%S` prints. -/
structure Stamp where
  text : Str
  ne_nil : text ≠ []
  digits : ∀ c ∈ text, c.isDigit = true

namespace Setting

variable (S : Setting)

/-- `$HOME/n` -/
def inHome (n : Str) : Str := child S.home n

/-- `$DOTFILES_BASE/n` -/
def inBase (n : Str) : Str := child S.dotfilesBase n

/-- `usrfile` -/
def usrfile : Str := S.inHome ".userrc".toList

/-- `$HOME/.oldrcs` -/
def oldrcs : Str := S.inHome ".oldrcs".toList

/-- `$HOME/.oldrcs/$DOTFILES_BASE/$dirstamp` -/
def stampedDir (dirstamp : Stamp) : Str := child (child S.oldrcs S.dotfilesBase) dirstamp.text

/-- `$HOME/.oldrcs/$DOTFILES_BASEstamp/`, where `DOTFILES_BASEstamp` is a variable that
nobody sets. -/
def copyDir : Str := child (child S.oldrcs []) []

end Setting

/-! ### Commands -/

/-- The commands that change files. -/
inductive Command
  /-- Something that prints `c`, with its output redirected. -/
  | write (append : Bool) (t c : Str)
  | touch (t : Str)
  | cp (src dst : Str)
  | mkdir (t : Str)
  | ln (src dst : Str)
  | rm (t : Str)

/-- Execute a command; `none` is a failure. -/
def Command.exec (cwd : Path) (fs : FileSystem) : Command → Option FileSystem
  | .write append t c => redirect fs cwd append t c
  | .touch t => Dfuser.touch fs cwd t
  | .cp src dst => Dfuser.cp fs cwd src dst
  | .mkdir t => some (mkdirP fs cwd t)
  | .ln src dst => lnForce fs cwd src dst
  | .rm t => some (rmTree fs cwd t)

/-- The files after a command. -/
def Command.run (cwd : Path) (fs : FileSystem) (cmd : Command) : FileSystem :=
  (cmd.exec cwd fs).getD fs

theorem run_cp (cwd : Path) (fs : FileSystem) (src dst : Str) :
    Command.run cwd fs (.cp src dst) = (Dfuser.cp fs cwd src dst).getD fs := rfl

theorem run_ln (cwd : Path) (fs : FileSystem) (src dst : Str) :
    Command.run cwd fs (.ln src dst) = (lnForce fs cwd src dst).getD fs := rfl

/-- The files after commands, one after the other. -/
def runAll (cwd : Path) (fs : FileSystem) (cmds : List Command) : FileSystem :=
  cmds.foldl (Command.run cwd) fs

/-- The exit code of commands is that of the last one. -/
def succeeds (cwd : Path) (fs : FileSystem) (cmds : List Command) : Bool :=
  match cmds.getLast? with
  | none => true
  | some cmd => (cmd.exec cwd (runAll cwd fs cmds.dropLast)).isSome

/-- Something to execute: the commands it comes to depend on the files. -/
abbrev Script := FileSystem → List Command

/-- `a; b` -/
def Script.then (cwd : Path) (a b : Script) : Script := fun fs => a fs ++ b (runAll cwd fs (a fs))

/-- `a && b` -/
def Script.andThen (cwd : Path) (a b : Script) : Script := fun fs =>
  a fs ++ if succeeds cwd fs (a fs) then b (runAll cwd fs (a fs)) else []

/-! ### The functions -/

/-- The variables that go into `.userrc`, and what `env` and `sed` print. -/
structure UserConfig where
  nuser : Str
  name : Str
  email : Str
  userpass64 : Str
  env : Str
  gitconfig : Str

section

variable (S : Setting)

/-- `write_user_config_file` -/
def writeUserConfigFile (u : UserConfig) : List Command :=
  [.write false S.usrfile ("user=".toList ++ S.whoami ++ ['\n']),
    .write true S.usrfile ("nuser=".toList ++ u.nuser ++ ['\n']),
    .write true S.usrfile ("name=\"".toList ++ u.name ++ ['"', '\n']),
    .write true S.usrfile ("email=".toList ++ u.email ++ ['\n']),
    .write true S.usrfile ("userpass64=".toList ++ u.userpass64 ++ ['\n']),
    .touch (S.inHome ".useraliases.sh".toList),
    .write false (S.inHome ".userenv.sh".toList) u.env]

/-- `write_gitconfig` -/
def writeGitconfig (u : UserConfig) : List Command :=
  [.write false (S.inBase ".gitconfig".toList) u.gitconfig]

/-- `$HOME/.userpath.sh` -/
def userpath : Str := S.inHome ".userpath.sh".toList

/-- `cp $DOTFILES_BASE/.userpath.template.sh $HOME/.userpath.sh` -/
def copyTemplate : Command := .cp (S.inBase ".userpath.template.sh".toList) (userpath S)

/-- `add_templates` -/
def addTemplates : Script := fun fs =>
  if fs.pathExists S.cwd (userpath S) then [] else [copyTemplate S]

/-- `set_user_path` -/
def setUserPath (dirstamp : Stamp) : Script := fun fs =>
  (if fs.pathExists S.cwd (userpath S) then
    [.mkdir S.oldrcs,
      .cp (userpath S) (child S.oldrcs (".userpath.".toList ++ dirstamp.text ++ ".sh".toList))]
  else []) ++ [copyTemplate S]

/-- `set_links` -/
def setLinks : List Command := dflist.map fun f => .ln (S.inBase f) (S.inHome f)

/-- `backup_links` -/
def backupLinks (dirstamp : Stamp) : List Command :=
  .mkdir (S.stampedDir dirstamp) :: dflist.map fun f => .cp (S.inHome f) S.copyDir

/-- `remove_links` -/
def removeLinks : List Command := dflist.map fun f => .rm (S.inHome f)

/-! ### The options -/

/-- The calls of the script that change files. -/
inductive Operation
  | install (u : UserConfig)
  | backup (dirstamp : Stamp)
  | remove
  /-- `--update gitconfig` and `--update password` -/
  | updateUser (u : UserConfig)
  | updateUserpath (dirstamp : Stamp) (u : UserConfig)
  | updateLinks

/-- What a call executes. -/
def Operation.script : Operation → Script
  | .install u =>
    Script.andThen S.cwd (fun _ => writeUserConfigFile S u) <|
      Script.andThen S.cwd (fun _ => setLinks S) <|
        Script.andThen S.cwd (addTemplates S) <|
          Script.andThen S.cwd (fun _ => writeUserConfigFile S u) fun _ => writeGitconfig S u
  | .backup dirstamp => fun _ => backupLinks S dirstamp
  | .remove => fun _ => removeLinks S
  | .updateUser u => fun _ => writeUserConfigFile S u ++ writeGitconfig S u
  | .updateUserpath dirstamp u =>
    Script.then S.cwd (setUserPath S dirstamp) fun _ =>
      writeUserConfigFile S u ++ writeGitconfig S u
  | .updateLinks => fun _ => setLinks S

/-- What a sequence of calls executes. -/
def commands : FileSystem → List Operation → List Command
  | _, [] => []
  | fs, op :: ops =>
    let cmds := op.script S fs
    cmds ++ commands (runAll S.cwd fs cmds) ops

end

/-! ### Paths -/

theorem validName_of_mem_dflist {f : Str} (h : f ∈ dflist) : ValidName f := by
  have hall : dflist.all (fun f => decide (ValidName f)) = true := by decide +kernel
  exact of_decide_eq_true (List.all_eq_true.mp hall f h)

theorem Stamp.validName (s : Stamp) : ValidName s.text := by
  have hnot : ∀ c, c.isDigit = false → c ∉ s.text := by
    intro c hc hmem
    rw [s.digits c hmem] at hc
    cases hc
  have hdot : '.' ∉ s.text := hnot '.' (by decide)
  refine ⟨s.ne_nil, hnot '/' (by decide), ?_, ?_⟩
  · intro h
    exact hdot (by rw [h]; simp [dot])
  · intro h
    exact hdot (by rw [h]; simp [dotdot])

/-- A text that starts at the root. -/
def Absolute (t : Str) : Prop := t = [] ∨ t.head? = some '/'

theorem head?_child_of_absolute {t : Str} (h : Absolute t) (n : Str) :
    (child t n).head? = some '/' := by
  rcases h with rfl | h
  · rfl
  · rw [child, List.head?_append, h]
    rfl

theorem start_child_of_absolute {t : Str} (h : Absolute t) (cwd : Path) (n : Str) :
    start cwd (child t n) = [] := by
  rw [start, if_pos (head?_child_of_absolute h n)]

/-- Where the texts below an absolute one lead. -/
theorem resolve_child_of_absolute {fs : FileSystem} {t n : Str} (h : Absolute t) (hn : ValidName n)
    (cwd : Path) :
    fs.resolve cwd (child t n) = walk fs false maxLinks [] (fields (· = '/') t ++ [n]) := by
  rw [resolve, if_neg (child_ne_nil t n), start_child_of_absolute h, comps_child t hn]

theorem place_child_of_absolute {fs : FileSystem} {t n : Str} {d : Path} (h : Absolute t)
    (hn : ValidName n) (hd : walk fs false maxLinks [] (fields (· = '/') t) = some d)
    (hdir : fs.obj d = some .dir) (cwd : Path) : fs.place cwd (child t n) = some (d, n) := by
  rw [place, comps_child t hn, List.getLast?_concat, List.dropLast_concat,
    start_child_of_absolute h, hd]
  simp [hn.2.2.1, hn.2.2.2, hdir]

end Dotfiles
end Dfuser
