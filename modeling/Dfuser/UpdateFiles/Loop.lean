import Dfuser.Lib.Move
import Dfuser.Lib.Renaming
import Dfuser.UpdateFiles.Names

/-!
# The files of a directory, renamed

`scripts/bash/update_files.sh` gives each `*.docx` of a directory its new name, unless
something has it already.  So nothing is lost; but the new name may be empty, and it may
have another new name itself.

The directory holds files only, some of which may be hidden or of other kinds, and its text
is no option to a tool.  Messages are left out.

## Main definitions

* `Folder` — the directory.
* `files`, `step`, `updateFiles` — the script.
* `Updated` — nothing is lost, no name is empty, and a second run renames nothing.

## Main results

* `step_eq`, `obj_step` — what one turn of the loop does.
* `names_foldl_step` — the names in use, as those of a renaming loop.
* `updated_iff` — **when the files are renamed as they should be.**
-/

namespace Dfuser
namespace UpdateFiles

open FileSystem
open Renaming (Moves Stays Settled)

/-! ### The script -/

variable (opts : Options) (M : Mover)

def docx : Str := ".docx".toList

/-- `"$input_dir"/*.docx` -/
def files (fs : FileSystem) (cwd : Path) (inputDir : Str) : List Str :=
  match sortTexts ((globNames fs cwd inputDir "*.docx".toList).map (child inputDir)) with
  | [] => [child inputDir "*.docx".toList]
  | paths => paths

/-- One turn of the loop. -/
def step (cwd : Path) (inputDir : Str) (fs : FileSystem) (file : Str) : FileSystem :=
  if isRegular fs cwd file then
    let baseName := basename opts [file, docx]
    let newName := newName baseName
    if baseName ≠ newName then
      let newPath := child inputDir (newName ++ docx)
      if fs.pathExists cwd newPath then fs else mv M fs cwd [file, newPath]
    else fs
  else fs

/-- The script, with the directory as its argument. -/
def updateFiles (fs : FileSystem) (cwd : Path) (inputDir : Str) : FileSystem :=
  if fs.isDir cwd inputDir then (files fs cwd inputDir).foldl (step opts M cwd inputDir) fs else fs

/-- A directory of files. -/
structure Folder where
  fs : FileSystem
  cwd : Path
  /-- The text the directory is given by, and the path it leads to. -/
  inputDir : Str
  path : Path
  noOption : inputDir.head? ≠ some '-'
  resolves : fs.resolve cwd inputDir = some path
  isDir : fs.obj path = some .dir
  holds : ∀ n o, fs.obj (path ++ [n]) = some o → ∃ c, o = .file c

/-- What the script is to bring about: no file is lost, each name that is given is that of a
normalised text, not an empty one, and in a second run no turn changes anything. -/
structure Updated (F : Folder) : Prop where
  lost : NothingLost F.path F.fs (updateFiles opts M F.fs F.cwd F.inputDir)
  named : ∀ pre file suf, files F.fs F.cwd F.inputDir = pre ++ file :: suf →
    step opts M F.cwd F.inputDir (pre.foldl (step opts M F.cwd F.inputDir) F.fs) file ≠
      pre.foldl (step opts M F.cwd F.inputDir) F.fs →
    newName (basename opts [file, docx]) ≠ [] ∧
      newName (newName (basename opts [file, docx])) = newName (basename opts [file, docx])
  again : ∀ file ∈ files (updateFiles opts M F.fs F.cwd F.inputDir) F.cwd F.inputDir,
    step opts M F.cwd F.inputDir (updateFiles opts M F.fs F.cwd F.inputDir) file =
      updateFiles opts M F.fs F.cwd F.inputDir

/-! ### Names -/

/-- The base name of an entry. -/
def base (n : Str) : Str :=
  chomp (if docx.isSuffixOf n ∧ docx ≠ n then n.take (n.length - docx.length) else n)

/-- The name of the entry that a file is to become. -/
def target (n : Str) : Str := newName (base n) ++ docx

/-- The file is to become another one. -/
def Wants (n : Str) : Prop := base n ≠ newName (base n)

/-- The names that a file may be given. -/
def Allowed (n : Str) : Prop := ∃ name, n = name ++ docx ∧ name ≠ [] ∧ newName name = name

theorem base_append {name : Str} (hne : name ≠ []) (hnewline : '\n' ∉ name) :
    base (name ++ docx) = name := by
  have hsuffix : docx.isSuffixOf (name ++ docx) = true :=
    List.isSuffixOf_iff_suffix.mpr (List.suffix_append _ _)
  have hdocx : docx ≠ name ++ docx := by
    intro h
    have hlength := congrArg List.length h
    rw [List.length_append] at hlength
    have hpos := List.length_pos_of_ne_nil hne
    omega
  rw [base, if_pos ⟨hsuffix, hdocx⟩, List.length_append, Nat.add_sub_cancel, List.take_left,
    chomp_of_notMem hnewline]

theorem newline_notMem_newName (name : Str) : '\n' ∉ newName name :=
  fun hc => (of_isPlain (mem_newName hc)).2.2.2.2 rfl

/-- The hidden file without a name. -/
theorem base_docx : base docx = docx ∧ newName docx = docx := by
  constructor
  · decide
  · decide +kernel

theorem not_wants_of_allowed {n : Str} (h : Allowed n) : ¬ Wants n := by
  obtain ⟨name, rfl, hne, hsame⟩ := h
  have hnewline : '\n' ∉ name := by
    rw [← hsame]
    exact newline_notMem_newName name
  rw [Wants, base_append hne hnewline, hsame]
  exact fun h => h rfl

theorem allowed_target_iff (n : Str) :
    Allowed (target n) ↔ newName (base n) ≠ [] ∧ newName (newName (base n)) = newName (base n) := by
  constructor
  · rintro ⟨name, heq, hne, hsame⟩
    rw [List.append_cancel_right heq]
    exact ⟨hne, hsame⟩
  · rintro ⟨hne, hsame⟩
    exact ⟨_, rfl, hne, hsame⟩

/-- A file that is to become another one is not that one. -/
theorem target_ne {n : Str} (h : Wants n) : target n ≠ n := by
  intro heq
  by_cases hne : newName (base n) = []
  · rw [target, hne, List.nil_append] at heq
    rw [← heq, base_docx.1, base_docx.2] at hne
    exact absurd hne (by decide)
  · have hbase := base_append hne (newline_notMem_newName (base n))
    have hsame : base n = newName (base n) := by
      conv_lhs => rw [← heq]
      exact hbase
    exact h hsame

/-- What a file is to become in the end. -/
theorem not_wants_target_target (n : Str) : ¬ Wants (target (target n)) := by
  have hdocx : ¬ Wants docx := by
    rw [Wants, base_docx.1, base_docx.2]
    exact fun h => h rfl
  by_cases hne : newName (base n) = []
  · have htarget : target (target n) = docx ++ docx := by
      rw [target, target, hne, List.nil_append, base_docx.1, base_docx.2]
    rw [htarget, Wants, base_append (by decide) (by decide), base_docx.2]
    exact fun h => h rfl
  · have hbase := base_append hne (newline_notMem_newName (base n))
    have htarget : target (target n) = newName (newName (base n)) ++ docx := by
      conv_lhs => rw [target, target, hbase]
    rw [htarget]
    by_cases hne' : newName (newName (base n)) = []
    · rw [hne', List.nil_append]
      exact hdocx
    · rw [Wants, base_append hne' (newline_notMem_newName _), newName_newName_newName]
      exact fun h => h rfl

theorem validName_target (n : Str) : ValidName (target n) := by
  have hmem : ∀ c ∈ target n, isPlain c = true := by
    intro c hc
    rcases List.mem_append.mp hc with hc | hc
    · exact mem_newName hc
    · have hall : (docx.all isPlain) = true := by decide
      exact List.all_eq_true.mp hall c hc
  have hx : 'x' ∈ target n := List.mem_append_right _ (by decide)
  refine ⟨List.ne_nil_of_mem hx, fun hc => absurd (hmem _ hc) (by decide), ?_, ?_⟩
  · intro h
    rw [h] at hx
    exact absurd hx (by decide)
  · intro h
    rw [h] at hx
    exact absurd hx (by decide)

/-! ### Turns of the loop -/

/-- The names of the entries. -/
def entries (F : Folder) (fs : FileSystem) : Set Str := {n | (fs.obj (F.path ++ [n])).isSome = true}

theorem mem_entries_iff {F : Folder} {fs : FileSystem} {n : Str} :
    n ∈ entries F fs ↔ (fs.obj (F.path ++ [n])).isSome = true := Iff.rfl

/-- What the loop can make of the file system: there are other files. -/
structure Reached (F : Folder) (fs : FileSystem) : Prop where
  same : F.fs.SameButFiles fs
  holds : ∀ n o, fs.obj (F.path ++ [n]) = some o → ∃ c, o = .file c

section Turns

variable {F : Folder} {fs : FileSystem} {n : Str}

theorem Reached.start (F : Folder) : Reached F F.fs := ⟨SameButFiles.refl _, F.holds⟩

theorem Reached.isDir (h : Reached F fs) : fs.obj F.path = some .dir :=
  (h.same F.path .dir fun c hc => by cases hc).mp F.isDir

theorem Reached.resolves (h : Reached F fs) : fs.resolve F.cwd F.inputDir = some F.path :=
  resolve_of_sameButFiles h.same F.resolves F.isDir

theorem isOption_child (F : Folder) (n : Str) : isOption (child F.inputDir n) = false := by
  rw [isOption, decide_eq_false_iff_not, child,
    List.head?_append_of_ne_nil _ (ne_nil_of_resolve F.resolves)]
  exact fun h => F.noOption h.1

theorem basename_child (opts : Options) (F : Folder) (hn : ValidName n) :
    basename opts [child F.inputDir n, docx] = base n := by
  rw [basename, if_neg]
  · dsimp only
    rw [baseName_child _ hn]
    rfl
  · simp [isOption_child F n]

/-- A name leads to its entry, and to nothing when there is none. -/
theorem Reached.resolve_of_mem (h : Reached F fs) (hn : n ∈ entries F fs) :
    fs.resolve F.cwd (child F.inputDir n) = some (F.path ++ [n]) := by
  obtain ⟨o, ho⟩ := Option.isSome_iff_exists.mp hn
  obtain ⟨c, rfl⟩ := h.holds n o ho
  exact resolve_entry_of_file h.resolves ho

theorem obj_of_notMem (hn : n ∉ entries F fs) : fs.obj (F.path ++ [n]) = none :=
  Option.not_isSome_iff_eq_none.mp hn

theorem Reached.resolve_of_notMem (h : Reached F fs) (hvalid : ValidName n)
    (hn : n ∉ entries F fs) : fs.resolve F.cwd (child F.inputDir n) = none :=
  resolve_entry_of_none h.resolves hvalid (obj_of_notMem hn)

/-- The turn of a name that is not there, that wants no other one, or finds it taken. -/
theorem step_eq (h : Reached F fs) (hn : ValidName n)
    (hnot : ¬ Moves Wants target (entries F fs) n) :
    step opts M F.cwd F.inputDir fs (child F.inputDir n) = fs := by
  unfold step
  rw [basename_child opts F hn]
  dsimp only
  split
  · next hregular =>
    split
    · next hwants =>
      have hthere : n ∈ entries F fs := by
        by_contra hnone
        rw [isRegular, h.resolve_of_notMem hn hnone] at hregular
        cases hregular
      have htaken : target n ∈ entries F fs := by
        by_contra hfree
        exact hnot ⟨hthere, hwants, hfree⟩
      have hpath : fs.pathExists F.cwd (child F.inputDir (newName (base n) ++ docx)) = true :=
        Option.isSome_iff_exists.mpr ⟨_, h.resolve_of_mem htaken⟩
      rw [if_pos hpath]
    · rfl
  · rfl

/-- **What a turn changes**: the file has its new name. -/
theorem obj_step (h : Reached F fs) (hn : ValidName n)
    (hmoves : Moves Wants target (entries F fs) n) :
    ∃ c, fs.obj (F.path ++ [n]) = some (.file c) ∧ ∀ r,
      (step opts M F.cwd F.inputDir fs (child F.inputDir n)).obj r =
        if r = F.path ++ [target n] then some (.file c)
        else if r = F.path ++ [n] then none else fs.obj r := by
  obtain ⟨hthere, hwants, hfree⟩ := hmoves
  obtain ⟨o, ho⟩ := Option.isSome_iff_exists.mp hthere
  obtain ⟨c, rfl⟩ := h.holds n o ho
  have hnone := obj_of_notMem hfree
  have hresolve := h.resolve_of_notMem (validName_target n) hfree
  have hregular : isRegular fs F.cwd (child F.inputDir n) = true := by
    rw [isRegular, h.resolve_of_mem hthere]
    exact isFileAt_iff.mpr ⟨c, ho⟩
  have hpath : ¬ fs.pathExists F.cwd (child F.inputDir (newName (base n) ++ docx)) = true := by
    change ¬ (fs.resolve F.cwd (child F.inputDir (target n))).isSome = true
    rw [hresolve]
    exact Bool.false_ne_true
  have hmove : step opts M F.cwd F.inputDir fs (child F.inputDir n) =
      mvOne M F.cwd (child F.inputDir (target n)) fs (child F.inputDir n) := by
    unfold step
    rw [if_pos hregular, basename_child opts F hn]
    dsimp only
    rw [if_pos (show base n ≠ newName (base n) from hwants), if_neg hpath, mv,
      if_neg (by simp [isOption_child])]
    rfl
  refine ⟨c, ho, ?_⟩
  rw [hmove]
  apply obj_mvOne (place_entry h.resolves h.isDir hn) _ ho
  · exact fun hcase => by cases hcase
  · rw [hnone]
    exact fun hcase => by cases hcase
  · intro hsame
    rw [hsame, ho] at hnone
    cases hnone
  · rw [mvTarget_of_free hresolve, place_entry h.resolves h.isDir (validName_target n)]

/-- A turn is one of a renaming loop, and loses nothing. -/
theorem reached_step (h : Reached F fs) (hn : ValidName n) :
    Reached F (step opts M F.cwd F.inputDir fs (child F.inputDir n)) ∧
      entries F (step opts M F.cwd F.inputDir fs (child F.inputDir n)) =
        Renaming.turn Wants target (entries F fs) n ∧
      NothingLost F.path fs (step opts M F.cwd F.inputDir fs (child F.inputDir n)) := by
  by_cases hmoves : Moves Wants target (entries F fs) n
  · obtain ⟨c, ho, hobj⟩ := obj_step opts M h hn hmoves
    have hnone := obj_of_notMem hmoves.2.2
    have hne : target n ≠ n := target_ne hmoves.2.1
    refine ⟨⟨h.same.trans (sameButFiles_of_moved ho hnone hobj), ?_⟩, ?_,
      nothingLost_of_obj ho hnone hobj⟩
    · intro m o hm
      rcases eq_or_of_moved hobj hm with rfl | hm
      · exact ⟨c, rfl⟩
      · exact h.holds m o hm
    · ext m
      rw [Renaming.mem_turn_iff, mem_entries_iff, hobj]
      by_cases htarget : m = target n
      · rw [if_pos (by rw [htarget])]
        exact iff_of_true rfl (.inr ⟨hmoves, htarget⟩)
      · rw [if_neg (by simpa using htarget)]
        by_cases hold : m = n
        · rw [if_pos (by rw [hold])]
          refine iff_of_false Bool.false_ne_true ?_
          rintro (⟨-, hstays⟩ | ⟨-, hgiven⟩)
          · exact hstays ⟨hmoves, hold⟩
          · exact htarget hgiven
        · rw [if_neg (by simpa using hold), ← mem_entries_iff]
          constructor
          · intro hm
            exact .inl ⟨hm, fun hboth => hold hboth.2⟩
          · rintro (⟨hm, -⟩ | ⟨-, hgiven⟩)
            · exact hm
            · exact absurd hgiven htarget
  · rw [step_eq opts M h hn hmoves]
    refine ⟨h, ?_, NothingLost.refl fs⟩
    ext m
    rw [Renaming.mem_turn_iff]
    simp [hmoves]

theorem foldl_step {L : List Str} (hL : ∀ n ∈ L, ValidName n) (h : Reached F fs) :
    Reached F ((L.map (child F.inputDir)).foldl (step opts M F.cwd F.inputDir) fs) ∧
      entries F ((L.map (child F.inputDir)).foldl (step opts M F.cwd F.inputDir) fs) =
        Renaming.run Wants target (entries F fs) L ∧
      NothingLost F.path fs
        ((L.map (child F.inputDir)).foldl (step opts M F.cwd F.inputDir) fs) := by
  induction L generalizing fs with
  | nil => exact ⟨h, rfl, NothingLost.refl fs⟩
  | cons n L ih =>
    rw [List.forall_mem_cons] at hL
    obtain ⟨hreached, hentries, hlost⟩ := reached_step opts M h hL.1
    obtain ⟨hreached', hentries', hlost'⟩ := ih hL.2 hreached
    rw [List.map_cons, List.foldl_cons, Renaming.run_cons, ← hentries]
    exact ⟨hreached', hentries', hlost.trans hlost'⟩

end Turns

/-! ### The list of the loop -/

/-- The pattern takes the name. -/
def IsDocx (n : Str) : Prop := globMatch "*.docx".toList n = true

/-- The names of the files that the loop goes through. -/
def docxNames (F : Folder) (fs : FileSystem) : List Str :=
  (sortTexts ((globNames fs F.cwd F.inputDir "*.docx".toList).map (child F.inputDir))).map baseName

section Listing

variable {F : Folder} {fs : FileSystem}

theorem Reached.globNames_eq (h : Reached F fs) :
    globNames fs F.cwd F.inputDir "*.docx".toList =
      (fs.namesIn F.path).filter (globMatch "*.docx".toList) := by
  rw [globNames, if_neg (ne_nil_of_resolve F.resolves), h.resolves]
  exact if_pos h.isDir

theorem mem_globNames (h : Reached F fs) {n : Str} :
    n ∈ globNames fs F.cwd F.inputDir "*.docx".toList ↔ n ∈ entries F fs ∧ IsDocx n := by
  rw [h.globNames_eq, List.mem_filter, mem_namesIn, mem_entries_iff, Option.isSome_iff_exists]
  exact Iff.rfl

theorem validName_of_mem_entries {n : Str} (h : n ∈ entries F fs) : ValidName n := by
  obtain ⟨o, ho⟩ := Option.isSome_iff_exists.mp h
  exact validName_of_obj ho

/-- The paths of the names are those of the loop. -/
theorem map_child_docxNames (h : Reached F fs) :
    (docxNames F fs).map (child F.inputDir) =
      sortTexts ((globNames fs F.cwd F.inputDir "*.docx".toList).map (child F.inputDir)) := by
  rw [docxNames, List.map_map]
  conv_rhs => rw [← List.map_id (sortTexts _)]
  apply List.map_congr_left
  intro path hpath
  rw [sortTexts, List.mem_insertionSort] at hpath
  obtain ⟨n, hn, rfl⟩ := List.mem_map.mp hpath
  rw [Function.comp_apply, baseName_child _ (validName_of_mem_entries ((mem_globNames h).mp hn).1),
    id]

theorem docxNames_perm (h : Reached F fs) :
    (docxNames F fs).Perm (globNames fs F.cwd F.inputDir "*.docx".toList) := by
  have hperm := (List.perm_insertionSort (fun a b => strLe a b = true)
    ((globNames fs F.cwd F.inputDir "*.docx".toList).map (child F.inputDir))).map baseName
  rw [List.map_map] at hperm
  refine hperm.trans (List.Perm.of_eq ?_)
  conv_rhs => rw [← List.map_id (globNames fs F.cwd F.inputDir "*.docx".toList)]
  apply List.map_congr_left
  intro n hn
  rw [Function.comp_apply, baseName_child _ (validName_of_mem_entries ((mem_globNames h).mp hn).1),
    id]

theorem mem_docxNames (h : Reached F fs) {n : Str} :
    n ∈ docxNames F fs ↔ n ∈ entries F fs ∧ IsDocx n := by
  rw [(docxNames_perm h).mem_iff, mem_globNames h]

theorem nodup_docxNames (h : Reached F fs) : (docxNames F fs).Nodup := by
  rw [(docxNames_perm h).nodup_iff, h.globNames_eq]
  exact (nodup_namesIn fs F.path).filter _

/-- The loop goes through the names, or through the pattern itself when there are none. -/
theorem files_eq (h : Reached F fs) : files fs F.cwd F.inputDir =
    if docxNames F fs = [] then [child F.inputDir "*.docx".toList]
    else (docxNames F fs).map (child F.inputDir) := by
  unfold files
  rw [← map_child_docxNames h]
  split
  · next hnil => rw [if_pos (List.map_eq_nil_iff.mp hnil)]
  · next hne =>
    rw [if_neg]
    intro hnil
    exact hne (by rw [hnil]; rfl)

/-- The turn of the pattern itself. -/
theorem step_pattern (h : Reached F fs) (hnil : docxNames F fs = []) :
    step opts M F.cwd F.inputDir fs (child F.inputDir "*.docx".toList) = fs := by
  apply step_eq opts M h (by decide)
  rintro ⟨hthere, -, -⟩
  have hmem : "*.docx".toList ∈ docxNames F fs := (mem_docxNames h).mpr ⟨hthere, by
    unfold IsDocx
    decide +kernel⟩
  rw [hnil] at hmem
  cases hmem

theorem updateFiles_eq (F : Folder) : updateFiles opts M F.fs F.cwd F.inputDir =
    ((docxNames F F.fs).map (child F.inputDir)).foldl (step opts M F.cwd F.inputDir) F.fs := by
  have hdir : F.fs.isDir F.cwd F.inputDir = true := by
    rw [FileSystem.isDir, F.resolves, Option.bind_some, F.isDir]
    rfl
  rw [updateFiles, if_pos hdir, files_eq (Reached.start F)]
  split
  · next hnil =>
    rw [List.foldl_cons, List.foldl_nil, step_pattern opts M (Reached.start F) hnil, hnil]
    rfl
  · rfl

end Listing

/-! ### When the files are renamed as they should be -/

section Updated

variable (F : Folder)

theorem reached_updateFiles : Reached F (updateFiles opts M F.fs F.cwd F.inputDir) ∧
    entries F (updateFiles opts M F.fs F.cwd F.inputDir) =
      Renaming.run Wants target (entries F F.fs) (docxNames F F.fs) ∧
    NothingLost F.path F.fs (updateFiles opts M F.fs F.cwd F.inputDir) := by
  rw [updateFiles_eq]
  exact foldl_step opts M
    (fun n hn => validName_of_mem_entries ((mem_docxNames (Reached.start F)).mp hn).1)
      (Reached.start F)

/-- A turn changes something exactly when it renames. -/
theorem step_ne_iff {F : Folder} {fs : FileSystem} {n : Str} (h : Reached F fs) (hn : ValidName n) :
    step opts M F.cwd F.inputDir fs (child F.inputDir n) ≠ fs ↔
      Moves Wants target (entries F fs) n := by
  constructor
  · intro hne
    by_contra hnot
    exact hne (step_eq opts M h hn hnot)
  · intro hmoves hsame
    obtain ⟨c, ho, hobj⟩ := obj_step opts M h hn hmoves
    have hself := hobj (F.path ++ [target n])
    rw [if_pos rfl, hsame, obj_of_notMem hmoves.2.2] at hself
    cases hself

/-- The script as a renaming loop. -/
theorem updated_iff_settled : Updated opts M F ↔
    Settled Wants target Allowed IsDocx (entries F F.fs) (docxNames F F.fs) := by
  obtain ⟨hreached, hentries, hlost⟩ := reached_updateFiles opts M F
  have hvalid : ∀ n ∈ docxNames F F.fs, ValidName n :=
    fun n hn => validName_of_mem_entries ((mem_docxNames (Reached.start F)).mp hn).1
  have hfiles := files_eq (Reached.start F)
  constructor
  · rintro ⟨-, hnamed, hagain⟩
    constructor
    · intro pre n suf heq hmoves
      have hn : ValidName n := hvalid n (by rw [heq]; simp)
      obtain ⟨hpre, hentries', -⟩ := foldl_step opts M (L := pre)
        (fun m hm => hvalid m (by rw [heq]; simp [hm])) (Reached.start F)
      rw [if_neg (by rw [heq]; simp), heq, List.map_append, List.map_cons] at hfiles
      have hname :=
        hnamed _ _ _ hfiles ((step_ne_iff opts M hpre hn).mpr (by rw [hentries']; exact hmoves))
      rw [basename_child opts F hn] at hname
      exact (allowed_target_iff n).mpr hname
    · intro n hdocx hmoves
      rw [← hentries] at hmoves
      have hmem : n ∈ docxNames F (updateFiles opts M F.fs F.cwd F.inputDir) :=
        (mem_docxNames hreached).mpr ⟨hmoves.1, hdocx⟩
      have hsame := hagain (child F.inputDir n) (by
        rw [files_eq hreached, if_neg (List.ne_nil_of_mem hmem)]
        exact List.mem_map_of_mem hmem)
      exact (step_ne_iff opts M hreached (validName_of_mem_entries hmoves.1)).mpr hmoves hsame
  · rintro ⟨hgiven, hagain⟩
    refine ⟨hlost, ?_, ?_⟩
    · intro pre file suf heq hne
      rw [hfiles] at heq
      split at heq
      · next hnil =>
        -- the pattern itself is not renamed
        exfalso
        cases pre with
        | nil =>
          obtain ⟨rfl, -⟩ := List.cons.inj heq
          exact hne (step_pattern opts M (Reached.start F) hnil)
        | cons p pre =>
          have hlength := congrArg List.length heq
          simp only [List.length_cons, List.length_nil, List.length_append] at hlength
          omega
      · obtain ⟨pre', rest, hnames, rfl, hrest⟩ := List.map_eq_append_iff.mp heq
        obtain ⟨n, suf', rfl, rfl, rfl⟩ := List.map_eq_cons_iff.mp hrest
        have hn : ValidName n := hvalid n (by rw [hnames]; simp)
        obtain ⟨hpre, hentries', -⟩ := foldl_step opts M (L := pre')
          (fun m hm => hvalid m (by rw [hnames]; simp [hm])) (Reached.start F)
        rw [step_ne_iff opts M hpre hn, hentries'] at hne
        rw [basename_child opts F hn]
        exact (allowed_target_iff n).mp (hgiven pre' n suf' hnames hne)
    · intro file hfile
      rw [files_eq hreached] at hfile
      split at hfile
      · next hnil =>
        rw [List.mem_singleton.mp hfile]
        exact step_pattern opts M hreached hnil
      · obtain ⟨n, hn, rfl⟩ := List.mem_map.mp hfile
        obtain ⟨hmem, hdocx⟩ := (mem_docxNames hreached).mp hn
        apply step_eq opts M hreached (validName_of_mem_entries hmem)
        rw [hentries]
        exact hagain n hdocx

/-- **When the files are renamed as they should be**: each one that is to become another one
gets a normalised name that is not empty, or its name is taken, by an entry that stays. -/
theorem updated_iff : Updated opts M F ↔ ∀ n ∈ docxNames F F.fs, base n ≠ newName (base n) →
    (newName (base n) ≠ [] ∧ newName (newName (base n)) = newName (base n)) ∨
      Stays Wants target (entries F F.fs) (docxNames F F.fs) (target n) := by
  rw [updated_iff_settled, Renaming.settled_iff (fun n hn => target_ne hn)
    (nodup_docxNames (Reached.start F)) (fun n => mem_docxNames (Reached.start F))
    not_wants_target_target (fun n hn => not_wants_of_allowed hn)]
  simp only [allowed_target_iff, Wants]

end Updated

/-- A directory with one file, `_.docx`. -/
def underscoreFile : Folder where
  fs := FileSystem.empty.add [] "_.docx".toList (.file "x".toList)
  cwd := []
  inputDir := ".".toList
  path := []
  noOption := by decide
  resolves := by decide +kernel
  isDir := rfl
  holds := file_of_keys (by decide +kernel)

/-- Its new name is empty. -/
theorem not_updated_underscoreFile : ¬ Updated Options.idle Mover.idle underscoreFile := by
  intro h
  have hnames : docxNames underscoreFile underscoreFile.fs = ["_.docx".toList] := by decide +kernel
  have hmoves : Moves Wants target (entries underscoreFile underscoreFile.fs) "_.docx".toList :=
    ⟨by unfold entries; decide +kernel, by unfold Wants; decide +kernel,
      by unfold entries; decide +kernel⟩
  have hsettled := (updated_iff_settled Options.idle Mover.idle underscoreFile).mp h
  have hallowed := hsettled.1 [] "_.docx".toList [] hnames hmoves
  exact absurd ((allowed_target_iff _).mp hallowed).1 (by decide +kernel)

end UpdateFiles
end Dfuser
