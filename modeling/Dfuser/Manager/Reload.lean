import Dfuser.Manager.Frame

/-!
# Reloading the manager

`reload_dfman` unsets the arrays and sources the file again, from inside a function.
There `declare -A` makes variables of that function, so what the file then reads goes
into arrays that are gone when the function returns: the shell is left without any,
where a new shell has both.

## Main definitions

* `Command`, `runAll` — sequences of `dfman user` commands, reloads and other commands.
* `LooksFresh` — the state of a new shell over the same files.

## Main results

* `globals_source` — sourcing inside a function leaves the global variables alone.
* `globals_reload` — **no global array is left after a reload.**
* `not_looksFresh_reload` — a reloaded shell never looks like a new one.
-/

namespace Dfuser
namespace Manager

open FileSystem

variable {S : Setting}

/-- A command at the prompt. -/
inductive Command
  | user (cmd : UserCommand)
  | reload
  /-- Any other command, by what it does to the shell. -/
  | other (effect : Shell → Result)

/-- The shell after a command. -/
def stepAny (S : Setting) (sh : Shell) : Command → Shell
  | .user cmd => step S sh cmd
  | .reload => (reloadDfman S sh).prompt
  | .other effect => (effect sh).prompt

/-- The shell after some commands. -/
def runAll (S : Setting) (sh : Shell) (cmds : List Command) : Shell := cmds.foldl (stepAny S) sh

/-- How often `PATH` has `$DFUSER_DIR/bin`. -/
def binCount (S : Setting) (sh : Shell) : ℕ :=
  (sh.path.splitOn ':').count (child S.dfuserDir "bin".toList)

/-- Both shells have a global associative array `x`, with the same content. -/
def SameArray (x : Str) (sh sh' : Shell) : Prop :=
  ∃ m m', sh.vars.globals.get? x = some (.assoc m) ∧ sh'.vars.globals.get? x = some (.assoc m') ∧
    ∀ k, m.get? k = m'.get? k

/-- The shell `sh` looks like one newly started over the files `fs`, `path` being what
`PATH` is before the file is sourced. -/
def LooksFresh (S : Setting) (fs : FileSystem) (path : Str) (sh : Shell) : Prop :=
  SameArray dfuserFiles sh (freshShell S fs path) ∧
    SameArray dfuserFilesEnabled sh (freshShell S fs path) ∧
    binCount S sh = binCount S (freshShell S fs path)

/-! ### Inside a function -/

/-- The global variables are `g`, and the running function has both arrays. -/
structure Inside (g : Dict Str Var) (sh : Shell) : Prop where
  globals : sh.vars.globals = g
  files : sh.vars.Holds dfuserFiles
  enabled : sh.vars.Holds dfuserFilesEnabled

theorem inside_store {g : Dict Str Var} {sh : Shell} (h : Inside g sh) {x : Str}
    (hx : sh.vars.Holds x) (v : Var) : Inside g { sh with vars := sh.vars.store x v } :=
  ⟨(Vars.globals_store hx v).trans h.globals, Vars.holds_store hx h.files v,
    Vars.holds_store hx h.enabled v⟩

theorem inside_assign {g : Dict Str Var} {sh : Shell} (h : Inside g sh) {x : Str}
    (hx : sh.vars.Holds x) (key value : Str) : Inside g (assign S sh x key value).last := by
  unfold assign
  split
  · next vars hvars =>
    obtain ⟨v, rfl⟩ := Vars.assign_cases hvars
    exact inside_store h hx v
  · exact h

theorem inside_addDfuserFiles {g : Dict Str Var} {sh : Shell} (h : Inside g sh) (fs : List Str) :
    Inside g (addDfuserFiles S sh fs).last := by
  induction fs generalizing sh with
  | nil => exact h
  | cons f fs ih =>
    rw [addDfuserFiles]
    split
    · exact h
    · exact ih h
    · exact last_bind (inside_assign h h.files _ _) fun sh' hsh' => ih hsh'

theorem inside_addEnabled {g : Dict Str Var} {sh : Shell} (h : Inside g sh) (fs : List Str) :
    Inside g (addEnabled S sh fs).last := by
  induction fs generalizing sh with
  | nil => exact h
  | cons f fs ih =>
    rw [addEnabled]
    exact last_bind (inside_assign h h.enabled _ _) fun sh' hsh' => ih hsh'

theorem inside_initializeDfuserFiles {g : Dict Str Var} {sh : Shell} (h : Inside g sh) :
    Inside g (initializeDfuserFiles S sh).last :=
  last_bind (inside_addDfuserFiles h _) fun _ hsh' => inside_addEnabled hsh' _

theorem vars_ensureDir (message dir : Str) (sh : Shell) :
    (ensureDir S message dir sh).vars = sh.vars := by
  unfold ensureDir
  split <;> rfl

theorem vars_ensureDirs (sh : Shell) : (ensureDirs S sh).vars = sh.vars := by
  simp only [ensureDirs, vars_ensureDir]

/-- Inside a function, the arrays are declared in its frame. -/
theorem inside_declareArrays {sh : Shell} (h : sh.vars.frames ≠ []) :
    Inside sh.vars.globals { sh with vars := declareArrays sh.vars } := by
  have h₁ := Vars.frames_declareAssoc_ne (x := dfuserFiles) h
  have h₂ := Vars.frames_declareAssoc_ne (x := dfuserFilesEnabled) h₁
  have h₃ := Vars.frames_declareAssoc_ne (x := dfbinFiles) h₂
  refine ⟨?_, ?_, ?_⟩
  · rw [declareArrays, Vars.globals_declareAssoc h₃, Vars.globals_declareAssoc h₂,
      Vars.globals_declareAssoc h₁, Vars.globals_declareAssoc h]
  · exact Vars.holds_declareAssoc (Vars.holds_declareAssoc (Vars.holds_declareAssoc
      (Vars.holds_declareAssoc_self h)))
  · exact Vars.holds_declareAssoc (Vars.holds_declareAssoc (Vars.holds_declareAssoc_self h₁))

/-- Sourcing the file inside a function leaves the global variables alone. -/
theorem globals_source {sh : Shell} (h : sh.vars.frames ≠ []) :
    (sourceDfuserMan S sh).last.vars.globals = sh.vars.globals := by
  -- the directories are made sure of first, which touches no variable
  obtain ⟨sh₁, hsh⟩ : ∃ sh₁, ensureDirs S
      { sh with path := sh.path ++ ':' :: child S.dfuserDir "bin".toList } = sh₁ := ⟨_, rfl⟩
  have hsame : sh₁.vars = sh.vars := by rw [← hsh, vars_ensureDirs]
  have hsource : sourceDfuserMan S sh =
      initializeDfuserFiles S { sh₁ with vars := declareArrays sh₁.vars } := by
    simp only [sourceDfuserMan, hsh]
  have hinside := @inside_declareArrays sh₁ (by rw [hsame]; exact h)
  rw [hsource, ← hsame]
  exact (inside_initializeDfuserFiles hinside).globals

/-- **No global array is left after a reload.** -/
theorem globals_reload {sh : Shell} (h : sh.vars.frames = []) :
    (reloadDfman S sh).prompt.vars.globals.get? dfuserFiles = none ∧
      (reloadDfman S sh).prompt.vars.globals.get? dfuserFilesEnabled = none := by
  have hpush : sh.vars.push.frames = [Dict.empty] := by rw [Vars.push, h]
  -- the frame of `reload_dfman` is empty when it unsets, so the global arrays go
  have hglobals : (reloadDfman S sh).prompt.vars.globals =
      (((((sh.vars.globals.erase dfuserFiles).erase dfuserFilesEnabled).erase dfbinFiles).erase
        dfbinFilesEnabled).erase dfuserFiles).erase dfuserFilesEnabled := by
    simp only [Result.prompt, Vars.toTop, reloadDfman, Vars.unset_of_frame_empty hpush,
      Vars.unset_of_frame_empty]
    split
    · rw [globals_source (by simp)]
      rfl
    · rfl
  rw [hglobals]
  simp [Dict.get?_erase]

/-! ### Whole runs -/

theorem frames_runAll {sh : Shell} (h : sh.vars.frames = []) (cmds : List Command) :
    (runAll S sh cmds).vars.frames = [] := by
  unfold runAll
  induction cmds generalizing sh with
  | nil => exact h
  | cons cmd cmds ih =>
    refine ih ?_
    cases cmd with
    | user cmd => cases cmd <;> rfl
    | reload => rfl
    | other effect => rfl

theorem not_looksFresh_of_top {sh : Shell} (h : sh.vars.frames = []) (fs : FileSystem)
    (path : Str) : ¬ LooksFresh S fs path (reloadDfman S sh).prompt := by
  rintro ⟨⟨m, m', hm, -⟩, -⟩
  rw [(globals_reload h).1] at hm
  cases hm

/-- A reloaded shell never looks like a new one, whatever commands came before: it has
lost both arrays. -/
theorem not_looksFresh_reload (S : Setting) (fs : FileSystem) (path : Str) (cmds : List Command) :
    ¬ LooksFresh S (runAll S (freshShell S fs path) cmds).fs path
      (reloadDfman S (runAll S (freshShell S fs path) cmds)).prompt :=
  not_looksFresh_of_top (frames_runAll rfl cmds) _ _

/-- A reload at the first prompt. -/
theorem not_looksFresh_smallHome :
    ¬ LooksFresh smallSetting
      (freshShell smallSetting (smallHome (.link "scripts/a.sh".toList)) "/bin".toList).fs
      "/bin".toList
      (reloadDfman smallSetting
        (freshShell smallSetting (smallHome (.link "scripts/a.sh".toList)) "/bin".toList)).prompt :=
  not_looksFresh_of_top rfl _ _

end Manager
end Dfuser
