import Dfuser.Lib.Move
import Dfuser.Lib.Transfer

/-!
# Files of one directory that another one lacks

`diff_dfbin` of `scripts/dfbin_man.sh` moves the files of a remote directory that a target
directory lacks.  It goes through what `find` prints as an unquoted expansion, and it expands
each name again for `basename` and for `mv`.  So a name with a blank is taken for several
operands, and a name that is a pattern for the names that it matches.

The two directories hold files only.  Of the two loops the first one only prints; it is left
out, and so are the messages.

## Main definitions

* `diffDfbin` — the script.
* `Dirs`, `Merged` — two directories, and what the script is to make of them.
* `Plain` — the shell leaves texts and names as they are.

## Main results

* `reached_step` — what one turn of the loop does.
* `merged_of_plain` — **then the directories are merged.**
-/

namespace Dfuser
namespace DfbinMan

open FileSystem
open Transfer (Stores turn run)

/-! ### The script -/

/-- What is left open of the tools. -/
structure Tools where
  options : Options
  mover : Mover
  /-- What `find` prints when one of its starting points is part of an expression. -/
  find : FileSystem → Path → List Str → Str

/-- The word starts an expression of `find`. -/
def isExpression (w : Str) : Bool := isOption w || w = ['('] || w = ['!']

/-- `-type f -maxdepth 1` -/
def isTopFile (f : Found) : Bool :=
  match f.obj with
  | some (.file _) => f.depth ≤ 1
  | _ => false

variable (T : Tools) (cwd : Path)

/-- `find $dir -type f -maxdepth 1`.  Without a starting point there is the working
directory. -/
def findOutput (fs : FileSystem) (dir : Str) : Str :=
  let starts := expandWords fs cwd dir
  if starts.any isExpression then T.find fs cwd starts
  else unlines (find fs cwd (if starts = [] then [dot] else starts) isTopFile)

/-- One turn of the loop over the remote directory. -/
def step (targetDir : Str) (fs : FileSystem) (file : Str) : FileSystem :=
  if fs.isRegular cwd (child targetDir (basename T.options (expandWords fs cwd file))) then fs
  else mv T.mover fs cwd (expandWords fs cwd file ++ expandWords fs cwd targetDir)

/-- `diff_dfbin` -/
def diffDfbin (fs : FileSystem) : List Str → FileSystem
  | [targetDir, remoteDir] =>
    if fs.isDir cwd targetDir ∧ fs.isDir cwd remoteDir then
      (expandWords fs cwd (findOutput T cwd fs remoteDir)).foldl (step T cwd targetDir) fs
    else fs
  | _ => fs

/-- Two directories of files. -/
structure Dirs where
  fs : FileSystem
  cwd : Path
  /-- The texts the directories are given by, and the paths they lead to. -/
  targetDir : Str
  remoteDir : Str
  target : Path
  remote : Path
  target_resolves : fs.resolve cwd targetDir = some target
  remote_resolves : fs.resolve cwd remoteDir = some remote
  target_isDir : fs.obj target = some .dir
  remote_isDir : fs.obj remote = some .dir
  target_holds : ∀ n o, fs.obj (target ++ [n]) = some o → ∃ c, o = .file c
  remote_holds : ∀ n o, fs.obj (remote ++ [n]) = some o → ∃ c, o = .file c

/-- The file system after the script. -/
def Dirs.merged (D : Dirs) : FileSystem := diffDfbin T D.cwd D.fs [D.targetDir, D.remoteDir]

/-- What the script is to make of the directories. -/
structure Merged (D : Dirs) : Prop where
  /-- The names in the target directory are those of both. -/
  names : ∀ n, ((D.merged T).obj (D.target ++ [n])).isSome = true ↔
    (D.fs.obj (D.target ++ [n])).isSome = true ∨ (D.fs.obj (D.remote ++ [n])).isSome = true
  /-- Files of the target directory keep their content. -/
  kept : ∀ n c, D.fs.obj (D.target ++ [n]) = some (.file c) →
    (D.merged T).obj (D.target ++ [n]) = some (.file c)
  /-- What leaves the remote directory arrives. -/
  arrived : ∀ n c, D.fs.obj (D.remote ++ [n]) = some (.file c) →
    (D.merged T).obj (D.remote ++ [n]) ≠ some (.file c) →
    (D.merged T).obj (D.target ++ [n]) = some (.file c)
  /-- Nothing else changes. -/
  frame : ∀ p, (∀ n, p ≠ D.target ++ [n]) → (∀ n, p ≠ D.remote ++ [n]) →
    (D.merged T).obj p = D.fs.obj p
  /-- A second run changes nothing. -/
  again : diffDfbin T D.cwd (D.merged T) [D.targetDir, D.remoteDir] = D.merged T

/-- The shell leaves the texts of the directories and the names in the remote one as they are,
no tool takes them for an option, and the remote directory is not given by a link. -/
structure Plain (D : Dirs) : Prop where
  target_literal : Literal D.targetDir
  target_noOption : isOption D.targetDir = false
  remote_literal : Literal D.remoteDir
  remote_noOption : D.remoteDir.head? ≠ some '-'
  remote_noExpression : isExpression D.remoteDir = false
  remote_entry : D.fs.entry D.cwd D.remoteDir = some D.remote
  noBlank : ∀ n ∈ D.fs.namesIn D.remote, ∀ c ∈ n, isBlank c = false
  noPattern : ∀ n ∈ D.fs.namesIn D.remote, n.any isSpecial = true →
    ∀ m ∈ D.fs.namesIn D.remote, globMatch n m = true → m = n

/-! ### Turns of the loop -/

/-- What the loop can make of the file system. -/
structure Reached (D : Dirs) (fs : FileSystem) : Prop where
  frame : ∀ p, (∀ n, p ≠ D.target ++ [n]) → (∀ n, p ≠ D.remote ++ [n]) → fs.obj p = D.fs.obj p
  target_holds : ∀ n o, fs.obj (D.target ++ [n]) = some o → ∃ c, o = .file c
  remote_holds : ∀ n o, fs.obj (D.remote ++ [n]) = some o → ∃ c, o = .file c
  /-- No name is new in the remote directory. -/
  remote_names : ∀ n ∈ fs.namesIn D.remote, n ∈ D.fs.namesIn D.remote

/-- What the directories hold. -/
def stores (D : Dirs) (fs : FileSystem) : Stores Str Obj :=
  ⟨fun n => fs.obj (D.target ++ [n]), fun n => fs.obj (D.remote ++ [n])⟩

section Turns

variable {T : Tools} {D : Dirs} {fs : FileSystem} {n : Str}

theorem Reached.start (D : Dirs) : Reached D D.fs :=
  ⟨fun _ _ _ => rfl, D.target_holds, D.remote_holds, fun _ hn => hn⟩

theorem Reached.same (h : Reached D fs) : D.fs.SameButFiles fs := by
  intro p o hfile
  by_cases htarget : ∃ n, p = D.target ++ [n]
  · obtain ⟨n, rfl⟩ := htarget
    constructor
    · intro ho
      obtain ⟨c, hc⟩ := D.target_holds n o ho
      exact absurd hc (hfile c)
    · intro ho
      obtain ⟨c, hc⟩ := h.target_holds n o ho
      exact absurd hc (hfile c)
  · by_cases hremote : ∃ n, p = D.remote ++ [n]
    · obtain ⟨n, rfl⟩ := hremote
      constructor
      · intro ho
        obtain ⟨c, hc⟩ := D.remote_holds n o ho
        exact absurd hc (hfile c)
      · intro ho
        obtain ⟨c, hc⟩ := h.remote_holds n o ho
        exact absurd hc (hfile c)
    · rw [h.frame p (fun n hn => htarget ⟨n, hn⟩) fun n hn => hremote ⟨n, hn⟩]

theorem Reached.target_resolves (h : Reached D fs) : fs.resolve D.cwd D.targetDir = some D.target :=
  resolve_of_sameButFiles h.same D.target_resolves D.target_isDir

theorem Reached.remote_resolves (h : Reached D fs) : fs.resolve D.cwd D.remoteDir = some D.remote :=
  resolve_of_sameButFiles h.same D.remote_resolves D.remote_isDir

theorem Reached.target_isDir (h : Reached D fs) : fs.obj D.target = some .dir :=
  (h.same _ .dir fun c hc => by cases hc).mp D.target_isDir

theorem Reached.remote_isDir (h : Reached D fs) : fs.obj D.remote = some .dir :=
  (h.same _ .dir fun c hc => by cases hc).mp D.remote_isDir

theorem validName_of_mem (hn : n ∈ D.fs.namesIn D.remote) : ValidName n := by
  obtain ⟨o, ho⟩ := (mem_namesIn _ _ _).mp hn
  exact validName_of_obj ho

/-- A name in the remote directory is one word. -/
theorem expandWords_child (hplain : Plain D) (h : Reached D fs) (hn : n ∈ D.fs.namesIn D.remote) :
    expandWords fs D.cwd (child D.remoteDir n) = [child D.remoteDir n] := by
  apply expandWords_of_glob (child_ne_nil _ _)
  · intro c hc
    rcases List.mem_append.mp hc with hc | hc
    · exact (hplain.remote_literal c hc).1
    · rcases List.mem_cons.mp hc with rfl | hc
      · decide
      · exact hplain.noBlank n hn c hc
  · apply glob_child hplain.remote_literal (validName_of_mem hn).2.1 h.remote_resolves
    intro hspecial m hm
    exact hplain.noPattern n hn hspecial m (h.remote_names m hm)

theorem isOption_child (hplain : Plain D) (n : Str) : isOption (child D.remoteDir n) = false := by
  rw [isOption, decide_eq_false_iff_not, child,
    List.head?_append_of_ne_nil _ (ne_nil_of_resolve D.remote_resolves)]
  exact fun h => hplain.remote_noOption h.1

/-- A turn asks whether the target directory has the name, and else moves the file. -/
theorem step_eq (hplain : Plain D) (h : Reached D fs) (hn : n ∈ D.fs.namesIn D.remote) :
    step T D.cwd D.targetDir fs (child D.remoteDir n) =
      if (fs.obj (D.target ++ [n])).isSome then fs
      else mvOne T.mover D.cwd D.targetDir fs (child D.remoteDir n) := by
  have hvalid := validName_of_mem hn
  have hnewline : '\n' ∉ n := fun hc => absurd (hplain.noBlank n hn _ hc) (by decide)
  have htarget :=
    expandWords_of_literal (ne_nil_of_resolve D.target_resolves) hplain.target_literal fs D.cwd
  rw [step, expandWords_child hplain h hn, htarget,
    basename_child T.options hvalid hnewline (isOption_child hplain n)]
  cases ho : fs.obj (D.target ++ [n]) with
  | some o =>
    obtain ⟨c, rfl⟩ := h.target_holds n o ho
    rw [isRegular, resolve_entry_of_file h.target_resolves ho, Option.any_some,
      if_pos (isFileAt_iff.mpr ⟨c, ho⟩)]
    rfl
  | none =>
    have hwords : ¬ ([child D.remoteDir n] ++ [D.targetDir]).any isOption = true := by
      simp [isOption_child hplain n, hplain.target_noOption]
    rw [isRegular, resolve_entry_of_none h.target_resolves hvalid ho]
    simp only [Option.any_none, Bool.false_eq_true, if_false, Option.isSome_none]
    unfold mv
    rw [if_neg hwords]
    rfl

/-- What the move of a file changes that the target directory lacks. -/
theorem obj_moved (h : Reached D fs) (hvalid : ValidName n)
    (htarget : fs.obj (D.target ++ [n]) = none) {c : Str}
    (hremote : fs.obj (D.remote ++ [n]) = some (.file c)) :
    (∀ m k, D.target ++ [m] ≠ D.remote ++ [k]) ∧ ∀ r,
      (mvOne T.mover D.cwd D.targetDir fs (child D.remoteDir n)).obj r =
        if r = D.target ++ [n] then some (.file c)
        else if r = D.remote ++ [n] then none else fs.obj r := by
  have hplace := place_entry h.remote_resolves h.remote_isDir hvalid
  have hdir : fs.isDir D.cwd D.targetDir = true := by
    rw [FileSystem.isDir, h.target_resolves, Option.bind_some, h.target_isDir]
    rfl
  have hput : mvTarget fs D.cwd n D.targetDir = some (D.target, n) := by
    rw [mvTarget, if_pos hdir, h.target_resolves]
    rfl
  -- the two directories are different ones, and so are their entries
  have hdirs : D.target ≠ D.remote := by
    intro heq
    rw [heq, hremote] at htarget
    cases htarget
  have hcross : ∀ m k, D.target ++ [m] ≠ D.remote ++ [k] :=
    fun m k heq => hdirs (List.append_inj' heq rfl).1
  exact ⟨hcross, obj_mvOne hplace hput hremote (fun hc => by cases hc)
    (by rw [htarget]; exact fun hc => by cases hc) (hcross n n)⟩

/-- **What a turn does**: it moves the file if the target directory lacks it. -/
theorem reached_step (hplain : Plain D) (h : Reached D fs) (hn : n ∈ D.fs.namesIn D.remote) :
    Reached D (step T D.cwd D.targetDir fs (child D.remoteDir n)) ∧
      stores D (step T D.cwd D.targetDir fs (child D.remoteDir n)) = turn (stores D fs) n := by
  have hvalid := validName_of_mem hn
  rw [step_eq hplain h hn]
  cases htarget : fs.obj (D.target ++ [n]) with
  | some o =>
    rw [Option.isSome_some, if_pos rfl]
    exact ⟨h, (Transfer.turn_of_some (show (stores D fs).target n = some o from htarget)).symm⟩
  | none =>
    rw [Option.isSome_none, if_neg Bool.false_ne_true]
    cases hremote : fs.obj (D.remote ++ [n]) with
    | none =>
      rw [mvOne_of_none]
      · exact ⟨h, (Transfer.turn_of_remote htarget hremote).symm⟩
      · intro e m hem
        rw [place_entry h.remote_resolves h.remote_isDir hvalid, Option.some.injEq,
          Prod.mk.injEq] at hem
        rw [← hem.1, ← hem.2, hremote]
    | some o =>
      obtain ⟨c, rfl⟩ := h.remote_holds n o hremote
      obtain ⟨hcross, hobj⟩ := obj_moved (T := T) h hvalid htarget hremote
      refine ⟨⟨?_, ?_, ?_, ?_⟩, ?_⟩
      · intro p hp hp'
        rw [hobj, if_neg (hp n), if_neg (hp' n), h.frame p hp hp']
      · intro m o ho
        rcases eq_or_of_moved hobj ho with rfl | ho
        · exact ⟨c, rfl⟩
        · exact h.target_holds m o ho
      · intro m o ho
        rcases eq_or_of_moved hobj ho with rfl | ho
        · exact ⟨c, rfl⟩
        · exact h.remote_holds m o ho
      · intro m hm
        obtain ⟨o, ho⟩ := (mem_namesIn _ _ _).mp hm
        rw [hobj, if_neg (hcross n m).symm] at ho
        split at ho
        · cases ho
        · exact h.remote_names m ((mem_namesIn _ _ _).mpr ⟨o, ho⟩)
      · rw [Transfer.turn_of_none (show (stores D fs).target n = none from htarget)]
        ext1
        · funext m
          change (mvOne T.mover D.cwd D.targetDir fs (child D.remoteDir n)).obj
            (D.target ++ [m]) = _
          rw [hobj, if_neg (hcross m n)]
          simp [stores, hremote]
        · funext m
          change (mvOne T.mover D.cwd D.targetDir fs (child D.remoteDir n)).obj
            (D.remote ++ [m]) = _
          rw [hobj, if_neg (hcross n m).symm]
          simp [stores]

/-- The loop is a run that transfers what is missing. -/
theorem reached_foldl (hplain : Plain D) (h : Reached D fs) {names : List Str}
    (hnames : ∀ n ∈ names, n ∈ D.fs.namesIn D.remote) :
    Reached D ((names.map (child D.remoteDir)).foldl (step T D.cwd D.targetDir) fs) ∧
      stores D ((names.map (child D.remoteDir)).foldl (step T D.cwd D.targetDir) fs) =
        run (stores D fs) names := by
  induction names generalizing fs with
  | nil => exact ⟨h, rfl⟩
  | cons n names ih =>
    rw [List.forall_mem_cons] at hnames
    obtain ⟨hreached, hstores⟩ := reached_step (T := T) hplain h hnames.1
    obtain ⟨hreached', hstores'⟩ := ih hreached hnames.2
    rw [hstores] at hstores'
    exact ⟨hreached', hstores'⟩

/-! ### The list of the loop -/

/-- What `find` lists are the names in the remote directory. -/
theorem mem_find_remote (hplain : Plain D) (h : Reached D fs) (file : Str) :
    file ∈ find fs D.cwd [D.remoteDir] isTopFile ↔
      ∃ n ∈ fs.namesIn D.remote, file = child D.remoteDir n := by
  have hentry : fs.entry D.cwd D.remoteDir = some D.remote :=
    entry_of_sameButFiles h.same hplain.remote_entry D.remote_isDir
  rw [mem_find]
  constructor
  · rintro ⟨f, hf, htest, rfl⟩
    rcases (mem_found hentry f).mp hf with rfl | ⟨rel, o, hrel, ho, rfl⟩
    · rw [isTopFile, h.remote_isDir] at htest
      cases htest
    · obtain ⟨c, rfl⟩ | hnot := em (∃ c, o = .file c)
      · have hlength : rel.length ≤ 1 := of_decide_eq_true htest
        obtain ⟨n, rfl⟩ := List.length_eq_one_iff.mp
          (Nat.le_antisymm hlength (List.length_pos_of_ne_nil hrel))
        exact ⟨n, (mem_namesIn _ _ _).mpr ⟨_, ho⟩, by simp [child]⟩
      · cases o with
        | file c => exact absurd ⟨c, rfl⟩ hnot
        | dir => cases htest
        | link t => cases htest
  · rintro ⟨n, hn, rfl⟩
    obtain ⟨o, ho⟩ := (mem_namesIn _ _ _).mp hn
    obtain ⟨c, rfl⟩ := h.remote_holds n o ho
    exact ⟨_, (mem_found hentry _).mpr (.inr ⟨[n], _, by simp, ho, rfl⟩), rfl, by simp [child]⟩

/-- The loop goes through the names in the remote directory. -/
theorem exists_files_eq (hplain : Plain D) (h : Reached D fs) : ∃ names : List Str,
    expandWords fs D.cwd (findOutput T D.cwd fs D.remoteDir) = names.map (child D.remoteDir) ∧
      ∀ n, n ∈ names ↔ n ∈ fs.namesIn D.remote := by
  have hmem := mem_find_remote hplain h
  have hstart :=
    expandWords_of_literal (ne_nil_of_resolve D.remote_resolves) hplain.remote_literal fs D.cwd
  have houtput : findOutput T D.cwd fs D.remoteDir =
      unlines (find fs D.cwd [D.remoteDir] isTopFile) := by
    simp [findOutput, hstart, hplain.remote_noExpression]
  have hwords : expandWords fs D.cwd (findOutput T D.cwd fs D.remoteDir) =
      find fs D.cwd [D.remoteDir] isTopFile := by
    rw [houtput]
    refine expandWords_unlines fun file hfile => ?_
    obtain ⟨n, hn, rfl⟩ := (hmem file).mp hfile
    exact expandWords_child hplain h (h.remote_names n hn)
  have hbase : ∀ n ∈ fs.namesIn D.remote, baseName (child D.remoteDir n) = n :=
    fun n hn => baseName_child _ (validName_of_mem (h.remote_names n hn))
  refine ⟨(find fs D.cwd [D.remoteDir] isTopFile).map baseName, ?_, ?_⟩
  · rw [hwords, List.map_map]
    conv_lhs => rw [← List.map_id (find fs D.cwd [D.remoteDir] isTopFile)]
    apply List.map_congr_left
    intro file hfile
    obtain ⟨n, hn, rfl⟩ := (hmem file).mp hfile
    rw [Function.comp_apply, hbase n hn, id]
  · intro n
    rw [List.mem_map]
    constructor
    · rintro ⟨file, hfile, rfl⟩
      obtain ⟨n, hn, rfl⟩ := (hmem file).mp hfile
      rw [hbase n hn]
      exact hn
    · intro hn
      exact ⟨_, (hmem _).mpr ⟨n, hn, rfl⟩, hbase n hn⟩

/-- The script, as a run over the names in the remote directory. -/
theorem diffDfbin_eq (h : Reached D fs) :
    diffDfbin T D.cwd fs [D.targetDir, D.remoteDir] =
      (expandWords fs D.cwd (findOutput T D.cwd fs D.remoteDir)).foldl
        (step T D.cwd D.targetDir) fs := by
  rw [diffDfbin, if_pos]
  constructor
  · rw [FileSystem.isDir, h.target_resolves, Option.bind_some, h.target_isDir]
    rfl
  · rw [FileSystem.isDir, h.remote_resolves, Option.bind_some, h.remote_isDir]
    rfl

end Turns

/-- Tools that do nothing with options. -/
def Tools.idle : Tools := ⟨Options.idle, Mover.idle, fun _ _ _ => []⟩

/-- Two directories with one file in common; the other one in the remote directory is a
pattern that matches nothing but itself. -/
def plainNames : Dirs where
  fs := ((((FileSystem.empty.add [] "t".toList .dir).add [] "r".toList .dir).add ["t".toList]
    "c".toList
    (.file "x".toList)).add ["r".toList] "c".toList (.file "y".toList)).add ["r".toList] "*b".toList
    (.file "z".toList)
  cwd := []
  targetDir := "t".toList
  remoteDir := "r".toList
  target := ["t".toList]
  remote := ["r".toList]
  target_resolves := by decide +kernel
  remote_resolves := by decide +kernel
  target_isDir := by decide +kernel
  remote_isDir := by decide +kernel
  target_holds := file_of_keys (by decide +kernel)
  remote_holds := file_of_keys (by decide +kernel)

theorem noBlank_plainNames (n : Str) (hn : n ∈ plainNames.fs.namesIn plainNames.remote) (c : Char)
    (hc : c ∈ n) : isBlank c = false := by
  have hall : ((plainNames.fs.namesIn plainNames.remote).all fun n => n.all fun c => !isBlank c) =
      true := by
    decide +kernel
  simpa using List.all_eq_true.mp (List.all_eq_true.mp hall n hn) c hc

/-- Two directories, of which the remote one holds the file `a b`. -/
def blankName : Dirs where
  fs := ((FileSystem.empty.add [] "t".toList .dir).add [] "r".toList .dir).add ["r".toList]
    "a b".toList
    (.file "x".toList)
  cwd := []
  targetDir := "t".toList
  remoteDir := "r".toList
  target := ["t".toList]
  remote := ["r".toList]
  target_resolves := by decide +kernel
  remote_resolves := by decide +kernel
  target_isDir := by decide +kernel
  remote_isDir := by decide +kernel
  target_holds := file_of_keys (by decide +kernel)
  remote_holds := file_of_keys (by decide +kernel)

end DfbinMan
end Dfuser
