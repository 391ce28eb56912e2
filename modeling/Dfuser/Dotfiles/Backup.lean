import Dfuser.Lib.Run
import Dfuser.Dotfiles.Config

/-!
# What a backup keeps

`dfconfig --backup` creates a directory with the time in its name and copies the dotfiles
somewhere else: the destination is spelled `$DOTFILES_BASEstamp`, a variable that nobody
sets, and so every backup goes to `$HOME/.oldrcs` itself, over the one before it.  In the
directory with the time in its name nothing ever arrives; so every backup is complete
only as long as there is nothing to back up.

## Main definitions

* `Event`, `step` — backups, with arbitrary changes in between.
* `Record`, `Record.Kept` — what a backup should have copied, and that the copy is there.
* `AllKept` — after each backup, all copies made so far are there.

## Main results

* `resolve_stampedDir_none` — nothing arrives in the stamped directory.
* `allKept_iff` — **the backups are complete exactly when there is never anything to back
  up.**
-/

namespace Dfuser
namespace Dotfiles

open FileSystem

/-! ### Backups and changes -/

/-- What can happen: a backup, or a change of the files by someone else. -/
inductive Event
  | backup (dirstamp : Stamp)
  | change (fs : FileSystem)

section

variable (S : Setting)

/-- The files after an event. -/
def step (fs : FileSystem) : Event → FileSystem
  | .backup dirstamp => runAll S.cwd fs (backupLinks S dirstamp)
  | .change fs' => fs'

/-- The path of a dotfile that exists in `$HOME`. -/
def existing (fs : FileSystem) (f : Str) : Option Path := fs.resolve S.cwd (S.inHome f)

/-- A dotfile as it was at the time of a backup: what was at the path it led to and
below. -/
structure Record where
  dirstamp : Stamp
  name : Str
  tree : Path → Option Obj

/-- The dotfiles that exist at the time of a backup. -/
def records (fs : FileSystem) (dirstamp : Stamp) : List Record :=
  dflist.filterMap fun f => (existing S fs f).map fun p =>
    ⟨dirstamp, f, fun rel => fs.obj (p ++ rel)⟩

/-- The stamped directory holds a copy of the dotfile, file or directory tree. -/
def Record.Kept (fs : FileSystem) (r : Record) : Prop :=
  ∃ q, fs.resolve S.cwd (child (S.stampedDir r.dirstamp) r.name) = some q ∧
    ∀ rel, fs.obj (q ++ rel) = r.tree rel

/-- After each backup, its copies and those of all earlier backups are there.  `made` are
the records of the backups before. -/
def AllKept : FileSystem → List Record → List Event → Prop
  | _, _, [] => True
  | fs, made, .backup dirstamp :: es =>
    let fs' := step S fs (.backup dirstamp)
    let made' := made ++ records S fs dirstamp
    (∀ r ∈ made', r.Kept S fs') ∧ AllKept fs' made' es
  | _, made, .change fs' :: es => AllKept fs' made es

/-- A backup at a new time: the directory it has created is empty. -/
def NewTime (fs : FileSystem) : Event → Prop
  | .backup dirstamp =>
    let fs' := mkdirP fs S.cwd (S.stampedDir dirstamp)
    ∀ d ∈ fs'.resolve S.cwd (S.stampedDir dirstamp), fs'.namesIn d = []
  | .change _ => True

/-- A backup with nothing to back up. -/
def NothingThere (fs : FileSystem) : Event → Prop
  | .backup _ => ∀ f ∈ dflist, existing S fs f = none
  | .change _ => True

end

/-! ### What the copies change -/

section Copies

variable {S : Setting} {fs fs' : FileSystem}

theorem absolute_oldrcs (S : Setting) : Absolute S.oldrcs :=
  .inr (head?_child_of_absolute S.home_absolute _)

theorem absolute_copyDir (S : Setting) : Absolute S.copyDir :=
  .inr (head?_child_of_absolute (.inr (head?_child_of_absolute (absolute_oldrcs S) _)) _)

theorem absolute_stampedDir (S : Setting) (s : Stamp) : Absolute (S.stampedDir s) := by
  refine .inr (head?_child_of_absolute (.inr ?_) _)
  exact head?_child_of_absolute (absolute_oldrcs S) _

theorem fields_child (t n : Str) :
    fields (· = '/') (child t n) = fields (· = '/') t ++ fields (· = '/') n := by
  rw [child, fields_append_cons (by simp)]

theorem fields_of_validName {n : Str} (h : ValidName n) : fields (· = '/') n = [n] := by
  apply fields_eq_singleton h.1
  intro c hc
  rw [decide_eq_false_iff_not]
  rintro rfl
  exact h.2.1 hc

theorem fields_stampedDir (S : Setting) (s : Stamp) :
    fields (· = '/') (S.stampedDir s) =
      fields (· = '/') S.oldrcs ++ (fields (· = '/') S.dotfilesBase ++ [s.text]) := by
  rw [Setting.stampedDir, fields_child, fields_child, fields_of_validName s.validName,
    List.append_assoc]

theorem fields_copyDir (S : Setting) : fields (· = '/') S.copyDir = fields (· = '/') S.oldrcs := by
  rw [Setting.copyDir, fields_child, fields_child, fields_nil, List.append_nil, List.append_nil]

/-- The destination asks for a directory. -/
theorem place_copyDir (S : Setting) (fs : FileSystem) : fs.place S.cwd S.copyDir = none := by
  have hlast : S.copyDir.getLast? = some '/' := by simp [Setting.copyDir, child]
  rw [place, comps, if_pos hlast, List.getLast?_concat, Option.bind_some, if_pos (.inl rfl)]

/-- **Where a copy goes**: a file that is there is overwritten, or a new one appears in
`$HOME/.oldrcs`. -/
theorem copy_cases {f : Str} (hf : f ∈ dflist)
    (h : Dfuser.cp fs S.cwd (S.inHome f) S.copyDir = some fs') :
    (∃ q c, fs' = fs.write q c) ∨
      ∃ d c, walk fs false maxLinks [] (fields (· = '/') S.oldrcs) = some d ∧
        fs.obj d = some .dir ∧ fs' = fs.add d f (.file c) := by
  have hname := validName_of_mem_dflist hf
  rcases cp_cases h with ⟨q, c, -, rfl⟩ | ⟨d, n, c, hplace, rfl⟩
  · exact .inl ⟨q, c, rfl⟩
  · refine .inr ⟨d, c, ?_⟩
    unfold cpTarget at hplace
    split at hplace
    · rw [Setting.inHome, baseName_child _ hname] at hplace
      obtain rfl := name_of_place_child hname hplace
      have hdir := dir_of_place hplace
      rw [place, comps_child _ hname, List.getLast?_concat, Option.bind_some,
        if_neg (not_or.mpr ⟨hname.2.2.1, hname.2.2.2⟩), List.dropLast_concat] at hplace
      obtain ⟨e, he, hplace⟩ := Option.bind_eq_some_iff.mp hplace
      split at hplace
      · cases hplace
        rw [start_child_of_absolute (absolute_copyDir S), fields_copyDir] at he
        exact ⟨he, hdir, rfl⟩
      · cases hplace
    · rw [place_copyDir] at hplace
      cases hplace

/-- What the copies of one backup have changed so far. -/
structure Copied (S : Setting) (fs fs' : FileSystem) : Prop where
  sameButFiles : fs.SameButFiles fs'
  /-- What is new is in `$HOME/.oldrcs`. -/
  fresh : ∀ q o, fs'.obj q = some o → fs.obj q = none →
    ∃ d f, walk fs false maxLinks [] (fields (· = '/') S.oldrcs) = some d ∧ q = d ++ [f]

theorem copied_step (h : Copied S fs fs') {f : Str} (hf : f ∈ dflist) :
    Copied S fs (Command.run S.cwd fs' (.cp (S.inHome f) S.copyDir)) := by
  rw [run_cp]
  cases hcp : Dfuser.cp fs' S.cwd (S.inHome f) S.copyDir with
  | none => exact h
  | some fs'' =>
    rw [Option.getD_some]
    refine ⟨h.sameButFiles.trans (sameButFiles_cp hcp), ?_⟩
    intro q o ho hnone
    rcases copy_cases hf hcp with ⟨p, c, rfl⟩ | ⟨d, c, hd, hdir, rfl⟩
    · -- a file that is written was there before
      rw [obj_write] at ho
      split at ho
      · next hq =>
        obtain ⟨rfl, hfile⟩ := hq
        obtain ⟨c', hc'⟩ := isFileAt_iff.mp hfile
        exact h.fresh q _ hc' hnone
      · exact h.fresh q o ho hnone
    · rw [obj_add] at ho
      split at ho
      · next hq =>
        exact ⟨d, f, walk_of_sameButFiles h.sameButFiles.symm hd hdir, hq.1⟩
      · exact h.fresh q o ho hnone

theorem copied_foldl {fs₁ : FileSystem} (h : Copied S fs fs₁) {names : List Str}
    (hnames : ∀ f ∈ names, f ∈ dflist) :
    Copied S fs (runAll S.cwd fs₁ (names.map fun f => .cp (S.inHome f) S.copyDir)) := by
  induction names generalizing fs₁ with
  | nil => exact h
  | cons f names ih =>
    rw [List.forall_mem_cons] at hnames
    exact ih (copied_step h hnames.1) hnames.2

/-- The first name after `.oldrcs` on the way to the stamped directory. -/
theorem exists_next_name (S : Setting) (s : Stamp) :
    ∃ c cs, fields (· = '/') S.dotfilesBase ++ [s.text] = c :: cs ∧ ValidName c := by
  cases hbase : fields (· = '/') S.dotfilesBase with
  | nil => exact ⟨s.text, [], rfl, s.validName⟩
  | cons c cs => exact ⟨c, cs ++ [s.text], rfl, S.base_names c (by rw [hbase]; simp)⟩

/-- What is empty before the copies is empty after them. -/
theorem resolve_none_of_copied (h : Copied S fs fs') {s : Stamp}
    (hnew : ∀ d, fs.resolve S.cwd (S.stampedDir s) = some d → fs.namesIn d = []) {f : Str}
    (hf : f ∈ dflist) : fs'.resolve S.cwd (child (S.stampedDir s) f) = none := by
  have hname := validName_of_mem_dflist hf
  rw [resolve_child_of_absolute (absolute_stampedDir S s) hname]
  cases hwalk : walk fs' false maxLinks [] (fields (· = '/') (S.stampedDir s) ++ [f]) with
  | none => rfl
  | some q =>
    exfalso
    obtain ⟨m, e, -, he, hlast⟩ := exists_walk_append hwalk
    have hwalk₁ := walk_of_sameButFiles h.sameButFiles.symm he (dir_of_walk_cons hlast)
    have hresolve : fs.resolve S.cwd (S.stampedDir s) = some e := by
      rw [Setting.stampedDir, fields_child, fields_of_validName s.validName] at hwalk₁
      rw [Setting.stampedDir, resolve_child_of_absolute _ s.validName]
      · exact hwalk₁
      · exact .inr (head?_child_of_absolute (absolute_oldrcs S) _)
    have hempty : ∀ c, fs.obj (e ++ [c]) = none := by
      intro c
      cases ho : fs.obj (e ++ [c]) with
      | none => rfl
      | some o =>
        have hmem := (fs.mem_namesIn e c).mpr ⟨o, ho⟩
        rw [hnew e hresolve] at hmem
        cases hmem
    -- what is found there is new, so the directory is `$HOME/.oldrcs`
    obtain ⟨o, ho⟩ : ∃ o, fs'.obj (e ++ [f]) = some o := by
      cases ho : fs'.obj (e ++ [f]) with
      | some o => exact ⟨o, rfl⟩
      | none =>
        rw [walk_cons_of_none hname ho] at hlast
        cases hlast
    obtain ⟨d, g, hd, hdg⟩ := h.fresh _ o ho (hempty f)
    obtain rfl : e = d := (List.append_inj' hdg rfl).1
    -- which is not empty, since the way goes on in it
    rw [fields_stampedDir] at hwalk₁
    obtain ⟨k, -, hrest⟩ := walk_append_le hwalk₁ hd
    obtain ⟨c, cs, hcs, hc⟩ := exists_next_name S s
    rw [hcs, walk_cons_of_none hc (hempty c)] at hrest
    cases hrest

theorem step_backup (S : Setting) (fs : FileSystem) (s : Stamp) :
    step S fs (.backup s) =
      runAll S.cwd (mkdirP fs S.cwd (S.stampedDir s))
        (dflist.map fun f => .cp (S.inHome f) S.copyDir) := by
  rw [step, backupLinks, runAll, List.foldl_cons]
  rfl

theorem copied_refl (S : Setting) (fs : FileSystem) : Copied S fs fs := by
  refine ⟨SameButFiles.refl fs, ?_⟩
  intro q o ho hnone
  rw [hnone] at ho
  cases ho

/-- **Nothing arrives in the stamped directory.** -/
theorem resolve_stampedDir_none {s : Stamp} (hnew : NewTime S fs (.backup s)) {f : Str}
    (hf : f ∈ dflist) :
    (step S fs (.backup s)).resolve S.cwd (child (S.stampedDir s) f) = none := by
  rw [step_backup]
  exact resolve_none_of_copied (copied_foldl (copied_refl S _) fun _ h => h) hnew hf

end Copies

/-! ### Whole runs -/

section Runs

variable {S : Setting}

theorem records_eq_nil_iff {fs : FileSystem} {s : Stamp} :
    records S fs s = [] ↔ ∀ f ∈ dflist, existing S fs f = none := by
  rw [records, List.filterMap_eq_nil_iff]
  apply forall₂_congr
  intro f _
  rw [Option.map_eq_none_iff]

/-- What a backup at a new time should have copied is not there. -/
theorem not_kept_of_mem_records {fs : FileSystem} {s : Stamp} (hnew : NewTime S fs (.backup s))
    {r : Record} (hr : r ∈ records S fs s) : ¬ r.Kept S (step S fs (.backup s)) := by
  obtain ⟨f, hf, hrec⟩ := List.mem_filterMap.mp hr
  obtain ⟨p, -, rfl⟩ := Option.map_eq_some_iff.mp hrec
  rintro ⟨q, hq, -⟩
  rw [resolve_stampedDir_none hnew hf] at hq
  cases hq

/-- **The backups are complete exactly when there is never anything to back up.** -/
theorem allKept_iff {fs : FileSystem} {run : List Event}
    (hnew : Meets (step S) (NewTime S) fs run) :
    AllKept S fs [] run ↔ Meets (step S) (NothingThere S) fs run := by
  induction run generalizing fs with
  | nil => exact Iff.rfl
  | cons e es ih =>
    cases e with
    | change fs' =>
      have hrest := @ih fs' hnew.2
      exact ⟨fun h => ⟨trivial, hrest.mp h⟩, fun h => hrest.mpr h.2⟩
    | backup s =>
      rw [AllKept, Meets, List.nil_append]
      constructor
      · rintro ⟨hkept, hrest⟩
        have hnil : records S fs s = [] := by
          apply List.eq_nil_iff_forall_not_mem.mpr
          intro r hr
          exact not_kept_of_mem_records hnew.1 hr (hkept r hr)
        rw [hnil] at hrest
        exact ⟨records_eq_nil_iff.mp hnil, (ih hnew.2).mp hrest⟩
      · rintro ⟨hnothing, hrest⟩
        have hnil : records S fs s = [] := records_eq_nil_iff.mpr hnothing
        rw [hnil]
        exact ⟨by simp, (ih hnew.2).mpr hrest⟩

end Runs

/-! ### A small home directory -/

instance (S : Setting) (fs : FileSystem) : ∀ e, Decidable (NewTime S fs e)
  | .backup dirstamp =>
    inferInstanceAs (Decidable (∀ d ∈ (mkdirP fs S.cwd (S.stampedDir dirstamp)).resolve S.cwd
      (S.stampedDir dirstamp), (mkdirP fs S.cwd (S.stampedDir dirstamp)).namesIn d = []))
  | .change _ => isTrue trivial

instance (S : Setting) (fs : FileSystem) : ∀ e, Decidable (NothingThere S fs e)
  | .backup _ => inferInstanceAs (Decidable (∀ f ∈ dflist, existing S fs f = none))
  | .change _ => isTrue trivial

/-- The home directory `/u` and the repository `/b`. -/
def smallSetting : Setting where
  cwd := []
  home := "/u".toList
  dotfilesBase := "/b".toList
  whoami := "u".toList
  home_absolute := .inr rfl
  home_literal := by decide
  base_absolute := .inr rfl
  base_literal := by decide
  base_names := by decide

/-- A home directory without dotfiles. -/
def bareHome : FileSystem := FileSystem.empty.add [] "u".toList .dir

/-- A home directory with one dotfile. -/
def oneDotfile : FileSystem :=
  bareHome.add ["u".toList] ".bashrc".toList (.file "alias l=ls".toList)

/-- A time. -/
def firstStamp : Stamp where
  text := ['1']
  ne_nil := by simp
  digits := by simp

theorem allKept_bareHome : AllKept smallSetting bareHome [] [.backup firstStamp] :=
  (allKept_iff (by decide +kernel)).mpr (by decide +kernel)

/-- The stamped directory stays empty. -/
theorem not_allKept_oneDotfile :
    ¬ AllKept smallSetting oneDotfile [] [.backup firstStamp] := by
  rintro ⟨hkept, -⟩
  have hexists : existing smallSetting oneDotfile ".bashrc".toList =
      some ["u".toList, ".bashrc".toList] := by decide +kernel
  have hmem : ⟨firstStamp, ".bashrc".toList, fun rel =>
      oneDotfile.obj (["u".toList, ".bashrc".toList] ++ rel)⟩ ∈
        [] ++ records smallSetting oneDotfile firstStamp := by
    refine List.mem_filterMap.mpr ⟨".bashrc".toList, by decide +kernel, ?_⟩
    rw [hexists]
    rfl
  obtain ⟨q, hq, -⟩ := hkept _ hmem
  have hnone : (step smallSetting oneDotfile (.backup firstStamp)).resolve smallSetting.cwd
      (child (smallSetting.stampedDir firstStamp) ".bashrc".toList) = none := by decide +kernel
  rw [hnone] at hq
  cases hq

end Dotfiles
end Dfuser
