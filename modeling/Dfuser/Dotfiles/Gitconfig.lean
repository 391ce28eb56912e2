import Dfuser.Lib.Sed
import Dfuser.Dotfiles.Backup

/-!
# The `.gitconfig` of the user

`write_gitconfig` makes `.gitconfig` from a template: two `sed` commands are to put in
the name and the e-mail.  Both texts stand in the `sed` scripts as they are, where a
slash ends the replacement, a backslash escapes and `&` is what was matched; the second
command also sees the name; and the shell empties `.gitconfig` before `sed` reads
anything.

A script that is no such command as `substitution?` reads is a program of its own; what
it does is a parameter.

## Main definitions

* `substitute` — the template with the name and the e-mail put in.
* `runWriteGitconfig` — the function, on the files.
* `Ordinary`, `Fits` — texts that do not change the scripts, and a template they fit.

## Main results

* `sedOutput_eq_substitute_iff` — when `sed` prints the template filled in.
* `writesTemplate_of_fits` — **when `.gitconfig` is the template filled in.**
-/

namespace Dfuser
namespace Dotfiles

open FileSystem

/-- `user_name` -/
def userName : Str := "user_name".toList

/-- `user_email` -/
def userEmail : Str := "user_email".toList

/-- The template with every `user_name` in it replaced by the name, every `user_email`
by the e-mail, and nothing else. -/
def substitute (name email template : Str) : Str :=
  rewriteAll [(userName, name), (userEmail, email)] template

/-- The scripts `write_gitconfig` gives to `sed`. -/
def gitconfigScripts (u : UserConfig) : List Str :=
  ["s/user_name/".toList ++ u.name ++ "/g".toList, "s/user_email/".toList ++ u.email ++ "/g".toList]

section

variable (S : Setting) (other : List Str → FileSystem → FileSystem)

/-- `$DOTFILES_BASE/.gitconfig` -/
def gitconfig : Str := S.inBase ".gitconfig".toList

/-- `$DOTFILES_BASE/.gitconfig_default` -/
def gitconfigDefault : Str := S.inBase ".gitconfig_default".toList

/-- `write_gitconfig`.  The redirection opens and empties its file before `sed` starts;
without it `sed` is not started. -/
def runWriteGitconfig (fs : FileSystem) (u : UserConfig) : Option FileSystem :=
  (redirect fs S.cwd false (gitconfig S) []).map fun emptied =>
    match (gitconfigScripts u).mapM substitution? with
    | none => other (gitconfigScripts u) emptied
    | some cmds =>
      let template := ((emptied.resolve S.cwd (gitconfigDefault S)).map (contentAt emptied)).getD []
      runAll S.cwd fs (writeGitconfig S { u with gitconfig := sedOutput cmds template })

/-- The template is a file, at `p`, and `.gitconfig` can be opened for writing, at `q`. -/
structure HasTemplate (fs : FileSystem) (template : Str) (p q : Path) : Prop where
  reads : openPath fs S.cwd (gitconfigDefault S) = some p
  content : fs.obj p = some (.file template)
  opens : openPath fs S.cwd (gitconfig S) = some q
  writable : fs.obj q ≠ some .dir

/-- `.gitconfig` is left as the template filled in, and no other file is changed. -/
def WritesTemplate (fs : FileSystem) (u : UserConfig) (template : Str) (q : Path) : Prop :=
  ∃ fs', runWriteGitconfig S other fs u = some fs' ∧
    fs'.obj q = some (.file (substitute u.name u.email template)) ∧
    ∀ x, x ≠ q → fs'.obj x = fs.obj x

end

/-! ### The scripts -/

/-- Text that ends no replacement and escapes nothing in it. -/
def Ordinary (v : Str) : Prop := '/' ∉ v ∧ '\\' ∉ v ∧ '\n' ∉ v

instance (v : Str) : Decidable (Ordinary v) :=
  inferInstanceAs (Decidable ('/' ∉ v ∧ '\\' ∉ v ∧ '\n' ∉ v))

theorem substitution?_of_ordinary {pattern v : Str} (hne : pattern ≠ [])
    (hpattern : pattern.all isNameChar = true) (hslash : '/' ∉ pattern) (hv : Ordinary v) :
    substitution? ("s/".toList ++ pattern ++ ['/'] ++ v ++ "/g".toList) = some ⟨pattern, v⟩ := by
  have hsplit : ("s/".toList ++ pattern ++ ['/'] ++ v ++ "/g".toList).splitOn '/' =
      [['s'], pattern, v, ['g']] := by
    have hparts : (['/'].intercalate [['s'], pattern, v, ['g']]).splitOn '/' =
        [['s'], pattern, v, ['g']] :=
      List.splitOn_intercalate '/' (by simp [hslash, hv.1]) (by simp)
    rw [← hparts]
    congr 1
    simp [List.intercalate_cons_cons]
  rw [substitution?, hsplit]
  dsimp only
  rw [if_pos ⟨rfl, rfl, hne, hpattern, hv.2⟩]

/-- The template and the texts to put in fit: no `&` is put in, and the name makes no
new `user_email`, unless that is replaced by itself. -/
def Fits (name email template : Str) : Prop :=
  (userName <:+: template → '&' ∉ name) ∧ (userEmail <:+: template → '&' ∉ email) ∧
    (occurrences userEmail (replaceAll userName name template) = occurrences userEmail template ∨
      email = userEmail ∨ email = ['&'])

theorem distinct_placeholders : Distinct 'u' "ser_name".toList "ser_email".toList :=
  ⟨by decide, by decide, by decide, by decide⟩

/-- **When `sed` prints the template filled in.** -/
theorem sedOutput_eq_substitute_iff (name email template : Str) :
    sedOutput [⟨userName, name⟩, ⟨userEmail, email⟩] template = substitute name email template ↔
      Fits name email template := by
  have hcmds : ∀ cmd ∈ [(⟨userName, name⟩ : Substitution), ⟨userEmail, email⟩],
      cmd.pattern ≠ [] ∧ '\n' ∉ cmd.pattern := by
    intro cmd hcmd
    simp only [List.mem_cons, List.not_mem_nil, or_false] at hcmd
    rcases hcmd with rfl | rfl
    · show userName ≠ [] ∧ '\n' ∉ userName
      decide
    · show userEmail ≠ [] ∧ '\n' ∉ userEmail
      decide
  have hself := expansion_eq_self_iff (p := userEmail) (by decide) (by decide) email
  rw [sedOutput_eq hcmds, Fits, ← hself]
  exact distinct_placeholders.replaceAll_expansion_iff (by decide) (by decide) name email template

theorem mapM_gitconfigScripts {u : UserConfig} (hname : Ordinary u.name)
    (hemail : Ordinary u.email) : (gitconfigScripts u).mapM substitution? =
      some [⟨userName, u.name⟩, ⟨userEmail, u.email⟩] := by
  have hfirst := @substitution?_of_ordinary userName _ (by decide) (by decide) (by decide) hname
  have hsecond := @substitution?_of_ordinary userEmail _ (by decide) (by decide) (by decide) hemail
  have hscripts : gitconfigScripts u =
      ["s/".toList ++ userName ++ ['/'] ++ u.name ++ "/g".toList,
        "s/".toList ++ userEmail ++ ['/'] ++ u.email ++ "/g".toList] := rfl
  rw [hscripts, List.mapM_cons, hfirst, List.mapM_cons, hsecond]
  rfl

/-! ### The files -/

section Files

variable {S : Setting} {other : List Str → FileSystem → FileSystem} {fs : FileSystem}
  {template : Str} {p q : Path}

theorem obj_start_inBase (n : Str) : fs.obj (start S.cwd (S.inBase n)) = some .dir := by
  rw [Setting.inBase, start_child_of_absolute S.base_absolute, obj_nil]

/-- `.gitconfig` is left with what `sed` prints for the template, or for nothing if it
is the template itself that has been emptied. -/
theorem runWriteGitconfig_ok (h : HasTemplate S fs template p q) {u : UserConfig}
    (hname : Ordinary u.name) (hemail : Ordinary u.email) :
    ∃ fs', runWriteGitconfig S other fs u = some fs' ∧
      fs'.obj q = some (.file (sedOutput [⟨userName, u.name⟩, ⟨userEmail, u.email⟩]
        (if p = q then [] else template))) ∧
      ∀ x, x ≠ q → fs'.obj x = fs.obj x := by
  obtain ⟨emptied, hredirect, hsame, hobj⟩ :=
    redirect_spec false (obj_start_inBase _) h.opens h.writable []
  have htemplate : emptied.obj p = some (.file (if p = q then [] else template)) := by
    rw [hobj]
    by_cases hpq : p = q
    · rw [if_pos hpq, if_pos hpq]
      rfl
    · rw [if_neg hpq, if_neg hpq, h.content]
  have hreads := h.reads
  rw [← openPath_of_sameButFiles hsame] at hreads
  have hresolve := resolve_of_openPath hreads htemplate
  obtain ⟨fs', hwrite, -, hobj'⟩ := redirect_spec false (obj_start_inBase _) h.opens h.writable
    (sedOutput [⟨userName, u.name⟩, ⟨userEmail, u.email⟩] (if p = q then [] else template))
  refine ⟨fs', ?_, ?_, ?_⟩
  · rw [runWriteGitconfig, gitconfig, hredirect, Option.map_some,
      mapM_gitconfigScripts hname hemail]
    simp only [hresolve, Option.map_some, contentAt_of_file htemplate, Option.getD_some,
      writeGitconfig, runAll, List.foldl_cons, List.foldl_nil, Command.run, Command.exec, hwrite]
  · rw [hobj', if_pos rfl]
    rfl
  · intro x hx
    rw [hobj', if_neg hx]

/-- Ordinary texts leave the scripts what they are, and it is up to `sed`. -/
theorem writesTemplate_iff_sedOutput (h : HasTemplate S fs template p q) {u : UserConfig}
    (hname : Ordinary u.name) (hemail : Ordinary u.email) :
    WritesTemplate S other fs u template q ↔
      sedOutput [⟨userName, u.name⟩, ⟨userEmail, u.email⟩] (if p = q then [] else template) =
        substitute u.name u.email template := by
  obtain ⟨fs', hrun, hfile, hrest⟩ := @runWriteGitconfig_ok S other _ _ _ _ h _ hname hemail
  constructor
  · intro hwrites
    obtain ⟨fs₁, hrun₁, hfile₁, _⟩ := hwrites
    rw [hrun] at hrun₁
    cases hrun₁
    rw [hfile] at hfile₁
    injection hfile₁ with hobj
    injection hobj
  · intro heq
    exact ⟨fs', hrun, heq ▸ hfile, hrest⟩

/-- For ordinary texts, exactly when `.gitconfig` is the template filled in. -/
theorem writesTemplate_iff (h : HasTemplate S fs template p q) {u : UserConfig}
    (hname : Ordinary u.name) (hemail : Ordinary u.email) :
    WritesTemplate S other fs u template q ↔
      p ≠ q ∧ Fits u.name u.email template ∨
        p = q ∧ substitute u.name u.email template = [] := by
  rw [writesTemplate_iff_sedOutput h hname hemail]
  by_cases hpq : p = q
  · have hnothing : sedOutput [⟨userName, u.name⟩, ⟨userEmail, u.email⟩] [] = [] := rfl
    rw [if_pos hpq, hnothing]
    constructor
    · intro heq
      exact Or.inr ⟨hpq, heq.symm⟩
    · rintro (⟨hne, -⟩ | ⟨-, heq⟩)
      · exact absurd hpq hne
      · exact heq.symm
  · rw [if_neg hpq, sedOutput_eq_substitute_iff]
    constructor
    · intro hfits
      exact Or.inl ⟨hpq, hfits⟩
    · rintro (⟨-, hfits⟩ | ⟨heq, -⟩)
      · exact hfits
      · exact absurd heq hpq

/-- **When `.gitconfig` is the template filled in.**  It is if it is another file than
the template, the name and the e-mail are ordinary texts, and the template fits them;
for ordinary texts only then, but for a template that is emptied and was to come out
empty. -/
theorem writesTemplate_of_fits (h : HasTemplate S fs template p q) (u : UserConfig) :
    (p ≠ q → Ordinary u.name → Ordinary u.email → Fits u.name u.email template →
      WritesTemplate S other fs u template q) ∧
    (Ordinary u.name → Ordinary u.email →
      (WritesTemplate S other fs u template q ↔
        p ≠ q ∧ Fits u.name u.email template ∨
          p = q ∧ substitute u.name u.email template = [])) := by
  refine ⟨fun hpq hname hemail hfits => ?_, fun hname hemail => writesTemplate_iff h hname hemail⟩
  exact (writesTemplate_iff h hname hemail).mpr (Or.inl ⟨hpq, hfits⟩)

end Files

/-! ### Two users -/

/-- A repository with the template `name = user_name`, `email = user_email`. -/
def templateRepository : FileSystem :=
  (FileSystem.empty.add [] "b".toList .dir).add ["b".toList] ".gitconfig_default".toList
    (.file "name = user_name\nemail = user_email\n".toList)

/-- A user with a name and an e-mail. -/
def userNamed (name email : Str) : UserConfig := ⟨[], name, email, [], [], []⟩

theorem hasTemplate_templateRepository :
    HasTemplate smallSetting templateRepository "name = user_name\nemail = user_email\n".toList
      ["b".toList, ".gitconfig_default".toList] ["b".toList, ".gitconfig".toList] where
  reads := by decide +kernel
  content := by decide +kernel
  opens := by decide +kernel
  writable := by decide +kernel

theorem writesTemplate_of_fits_plain :
    WritesTemplate smallSetting (fun _ fs => fs) templateRepository
      (userNamed "N. User".toList "n@user".toList)
      "name = user_name\nemail = user_email\n".toList ["b".toList, ".gitconfig".toList] :=
  (writesTemplate_of_fits hasTemplate_templateRepository _).1 (by decide) (by decide) (by decide)
    ⟨by decide +kernel, by decide +kernel, by decide +kernel⟩

/-- In `A&B`, the ampersand is what was matched. -/
theorem not_writesTemplate_ampersand :
    ¬ WritesTemplate smallSetting (fun _ fs => fs) templateRepository
      (userNamed "A&B".toList "n@user".toList)
      "name = user_name\nemail = user_email\n".toList ["b".toList, ".gitconfig".toList] := by
  intro ⟨fs', hrun, hfile, _⟩
  have hleft : (runWriteGitconfig smallSetting (fun _ fs => fs) templateRepository
      (userNamed "A&B".toList "n@user".toList)).map
        (·.obj ["b".toList, ".gitconfig".toList]) =
      some (some (.file "name = Auser_nameB\nemail = n@user\n".toList)) := by decide +kernel
  rw [hrun, Option.map_some, hfile] at hleft
  revert hleft
  decide +kernel

end Dotfiles
end Dfuser
