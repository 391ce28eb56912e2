import Dfuser.DfbinMan
import Dfuser.Lib.Merges
import Dfuser.Lib.RealPath

/-!
# Merging many directories

`diff_dfbin` merges one directory into another one.  Here it is called again and again, for any
directories of a family and in any order: the target of one call may be the remote directory of
the next.  A file is only ever moved to a directory that has no file of its name, and so the
files of one name just change places.

## Main definitions

* `Directories` — directories of files whose names and texts the shell leaves as they are.
* `Directories.diff` — the directories after a call of `diff_dfbin`.
* `runs` — the files after any calls.

## Main results

* `diff_spec` — one call merges the directories.
* `runs_permute` — **no sequence of calls loses or doubles a file.**
* `runs_into` — calls with one target: the first file of a name stays.
-/

namespace Dfuser
namespace DfbinMan

open FileSystem
open Transfer (merge mergeAll)

/-- Directories of files.  The shell leaves their texts and the names in them as they are, no
tool takes them for an option, and none is given by a link. -/
structure Directories (ι : Type*) where
  fs : FileSystem
  cwd : Path
  text : ι → Str
  path : ι → Path
  literal : ∀ i, Literal (text i)
  noOption : ∀ i, (text i).head? ≠ some '-'
  noExpression : ∀ i, isExpression (text i) = false
  entry : ∀ i, fs.entry cwd (text i) = some (path i)
  isDir : ∀ i, fs.obj (path i) = some .dir
  distinct : Function.Injective path
  holds : ∀ i n o, fs.obj (path i ++ [n]) = some o → ∃ c, o = .file c
  names : ∀ i n o, fs.obj (path i ++ [n]) = some o → Literal n

variable {ι : Type*} (T : Tools) (F : Directories ι)

/-- What the directories hold. -/
def Directories.contents (i : ι) (n : Str) : Option Obj := F.fs.obj (F.path i ++ [n])

/-- The two directories of a call. -/
def Directories.dirs (t r : ι) : Dirs where
  fs := F.fs
  cwd := F.cwd
  targetDir := F.text t
  remoteDir := F.text r
  target := F.path t
  remote := F.path r
  target_resolves := resolve_of_entry (F.entry t) (F.isDir t)
  remote_resolves := resolve_of_entry (F.entry r) (F.isDir r)
  target_isDir := F.isDir t
  remote_isDir := F.isDir r
  target_holds := F.holds t
  remote_holds := F.holds r

theorem Directories.plain (t r : ι) : Plain (F.dirs t r) where
  target_literal := F.literal t
  target_noOption := decide_eq_false fun h => F.noOption t h.1
  remote_literal := F.literal r
  remote_noOption := F.noOption r
  remote_noExpression := F.noExpression r
  remote_entry := F.entry r
  noBlank n hn c hc := by
    obtain ⟨o, ho⟩ := (mem_namesIn _ _ _).mp hn
    exact (F.names r n o ho c hc).1
  noPattern n hn hspecial := by
    obtain ⟨o, ho⟩ := (mem_namesIn _ _ _).mp hn
    rw [any_isSpecial_of_literal (F.names r n o ho)] at hspecial
    cases hspecial

section Calls

variable [DecidableEq ι]

/-- **One call merges the directories**, and changes nothing else. -/
theorem diff_spec (t r : ι) : Reached (F.dirs t r) ((F.dirs t r).merged T) ∧ ∀ i n,
    ((F.dirs t r).merged T).obj (F.path i ++ [n]) = merge F.contents t r i n := by
  have hplain := F.plain t r
  obtain ⟨names, hfiles, hnames⟩ := exists_files_eq (T := T) hplain (Reached.start (F.dirs t r))
  obtain ⟨hreached, hstores⟩ :=
    reached_foldl (T := T) hplain (Reached.start (F.dirs t r)) fun n hn => (hnames n).mp hn
  have hmerged : (F.dirs t r).merged T =
      (names.map (child (F.dirs t r).remoteDir)).foldl
        (step T (F.dirs t r).cwd (F.dirs t r).targetDir) (F.dirs t r).fs := by
    rw [Dirs.merged, diffDfbin_eq (Reached.start (F.dirs t r)), hfiles]
  rw [← hmerged] at hreached hstores
  have hcovers : ∀ n, n ∉ names → F.contents r n = none := by
    intro n hn
    by_contra hsome
    obtain ⟨o, ho⟩ := Option.ne_none_iff_exists'.mp hsome
    exact hn ((hnames n).mpr ((mem_namesIn _ _ _).mpr ⟨o, ho⟩))
  refine ⟨hreached, fun i n => ?_⟩
  unfold merge
  by_cases hit : i = t
  · rw [if_pos hit, hit]
    have htarget := congrArg (fun s => s.target n) hstores
    refine htarget.trans ((Transfer.run_target _ _ _).trans ?_)
    split
    · rfl
    · next hn => rw [hcovers n hn]; rfl
  · rw [if_neg hit]
    by_cases hir : i = r
    · have hremote := congrArg (fun s => s.remote n) hstores
      subst hir
      refine hremote.trans ((Transfer.run_remote _ _ _).trans ?_)
      by_cases hn : n ∈ names
      · simp only [hn, true_and]
        rfl
      · rw [if_neg fun h => hn h.1]
        have hnone := hcovers n hn
        rw [hnone]
        split <;> exact hnone
    · rw [if_neg fun h => hir h.1]
      refine hreached.frame _ (fun m heq => ?_) fun m heq => ?_
      · exact hit (F.distinct (List.append_inj' heq rfl).1)
      · exact hir (F.distinct (List.append_inj' heq rfl).1)

/-- What is in a directory after a call was in one before it. -/
theorem exists_of_merged {t r i : ι} {n : Str} {o : Obj}
    (h : ((F.dirs t r).merged T).obj (F.path i ++ [n]) = some o) :
    ∃ j, F.fs.obj (F.path j ++ [n]) = some o := by
  obtain ⟨σ, hσ⟩ := Transfer.merge_eq_perm F.contents t r n
  rw [(diff_spec T F t r).2, hσ] at h
  exact ⟨σ i, h⟩

/-- The directories after a call of `diff_dfbin`. -/
def Directories.diff (t r : ι) : Directories ι where
  fs := diffDfbin T F.cwd F.fs [F.text t, F.text r]
  cwd := F.cwd
  text := F.text
  path := F.path
  literal := F.literal
  noOption := F.noOption
  noExpression := F.noExpression
  entry i := entry_of_sameButFiles (diff_spec T F t r).1.same (F.entry i) (F.isDir i)
  isDir i := ((diff_spec T F t r).1.same _ .dir fun c hc => by cases hc).mp (F.isDir i)
  distinct := F.distinct
  holds i n o ho := by
    obtain ⟨j, hj⟩ := exists_of_merged T F ho
    exact F.holds j n o hj
  names i n o ho := by
    obtain ⟨j, hj⟩ := exists_of_merged T F ho
    exact F.names j n o hj

theorem contents_diff (t r : ι) : (F.diff T t r).contents = merge F.contents t r := by
  funext i n
  exact (diff_spec T F t r).2 i n

/-- The files after calls of `diff_dfbin`, each with a target and a remote directory. -/
def runs (pairs : List (ι × ι)) : FileSystem :=
  pairs.foldl (fun fs p => diffDfbin T F.cwd fs [F.text p.1, F.text p.2]) F.fs

/-- Calls one after the other: the directories are merged, and nothing else changes. -/
theorem runs_spec (pairs : List (ι × ι)) :
    (∀ i n, (runs T F pairs).obj (F.path i ++ [n]) = mergeAll F.contents pairs i n) ∧
      ∀ p, (∀ i n, p ≠ F.path i ++ [n]) → (runs T F pairs).obj p = F.fs.obj p := by
  induction pairs generalizing F with
  | nil => exact ⟨fun _ _ => rfl, fun _ _ => rfl⟩
  | cons q pairs ih =>
    obtain ⟨hcontents, hframe⟩ := ih (F.diff T q.1 q.2)
    refine ⟨fun i n => ?_, fun p hp => ?_⟩
    · have hrest := hcontents i n
      rw [contents_diff] at hrest
      exact hrest
    · refine (hframe p hp).trans ?_
      exact (diff_spec T F q.1 q.2).1.frame p (hp q.1) (hp q.2)

/-- **No sequence of calls loses or doubles a file**: the files of one name change places among
the directories, and everything else is left alone. -/
theorem runs_permute (pairs : List (ι × ι)) :
    (∀ n, ∃ σ : Equiv.Perm ι, ∀ i,
      (runs T F pairs).obj (F.path i ++ [n]) = F.fs.obj (F.path (σ i) ++ [n])) ∧
    ∀ p, (∀ i n, p ≠ F.path i ++ [n]) → (runs T F pairs).obj p = F.fs.obj p := by
  obtain ⟨hcontents, hframe⟩ := runs_spec T F pairs
  refine ⟨fun n => ?_, hframe⟩
  obtain ⟨σ, hσ⟩ := Transfer.mergeAll_eq_perm F.contents pairs n
  exact ⟨σ, fun i => (hcontents i n).trans (hσ i)⟩

/-- **Calls with one target**: it has in the end every name that one of the directories has, with
its own file or else with that of the first directory that has one. -/
theorem runs_into (t : ι) (rs : List ι) (n : Str) :
    (runs T F (rs.map fun r => (t, r))).obj (F.path t ++ [n]) =
      (t :: rs).findSome? fun i => F.fs.obj (F.path i ++ [n]) :=
  ((runs_spec T F _).1 t n).trans (Transfer.mergeAll_into F.contents t rs n)

end Calls

/-- Two directories of files, `c` in both of them. -/
def bothHaveFiles : FileSystem :=
  ((((FileSystem.empty.add [] "t".toList .dir).add [] "r".toList .dir).add ["t".toList]
    "c".toList (.file "x".toList)).add ["r".toList] "c".toList (.file "y".toList)).add ["r".toList]
    "b".toList (.file "z".toList)

/-- The text and the path of the target directory and of the remote one. -/
def bothHaveText (i : Bool) : Str := if i then "t".toList else "r".toList

theorem bothHave_literal (i : Bool) :
    ∀ n ∈ bothHaveFiles.namesIn [bothHaveText i], Literal n := by
  cases i <;> decide +kernel

def bothHave : Directories Bool where
  fs := bothHaveFiles
  cwd := []
  text := bothHaveText
  path i := [bothHaveText i]
  literal := by decide
  noOption := by decide
  noExpression := by decide
  entry := by decide +kernel
  isDir := by decide +kernel
  distinct i j h := by
    revert i j
    decide
  holds i := by cases i <;> exact file_of_keys (by decide +kernel)
  names i n o ho := bothHave_literal i n ((mem_namesIn _ _ _).mpr ⟨o, ho⟩)

/-- The one file moves, and the other one stays. -/
theorem runs_into_bothHave :
    (runs Tools.idle bothHave [(true, false)]).obj ["t".toList, "b".toList] =
      some (.file "z".toList) ∧
    (runs Tools.idle bothHave [(true, false)]).obj ["t".toList, "c".toList] =
      some (.file "x".toList) :=
  ⟨(runs_into Tools.idle bothHave true [false] "b".toList).trans (by decide +kernel),
    (runs_into Tools.idle bothHave true [false] "c".toList).trans (by decide +kernel)⟩

end DfbinMan
end Dfuser
