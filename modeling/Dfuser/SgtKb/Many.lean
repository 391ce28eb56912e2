import Dfuser.Lib.Lines
import Dfuser.Lib.RealPath
import Dfuser.SgtKb

/-!
# Scanning all directories of a directory

`scan_many` of `scripts/sgt-kb.sh` calls `dir_scan` for every directory in a given one, in the
order of their names.  It sets `IFS` to a newline first, so that names may have blanks.  The
calls take no time to speak of, and the scans run in the background: they write, end and are
looked at with `get_pids` while others are still to be started.

Scans of one directory share their files, and so do scans of `/a/b` and `/a-b`.  The calls of
one `scan_many` differ in the last name of the path only, which has no slash: their files are
different.

The root is an absolute path and one literal word, so that it is no option.  Names are sorted as
in the C locale; the lines that are printed are left out.

## Main definitions

* `scanMany` — the calls of `dir_scan` that `scan_many` makes.
* `Rooted` — the root is a directory with names that stay one word.
* `Runs` — a scan was started, and has not ended since.

## Main results

* `scanMany_eq` — the calls, one for each directory.
* `meets_separate` — scans of paths that differ by more than slashes have names of their own.
* `mem_running_iff` — which scans are running.
* `scanMany_tracks` — **whatever goes on while `scan_many` starts its scans, all of them that run
  are reported, and no two share a file.**
-/

namespace Dfuser
namespace SgtKb

open FileSystem

/-! ### The script -/

/-- A call of `dir_scan`: the value of `IFS`, what `realpath` prints, and whether that is a
directory. -/
structure Call where
  ifs : Ifs
  target : Str
  isDirectory : Bool
  deriving DecidableEq, Repr

/-- Why `scan_many` does nothing. -/
inductive ManyRefusal
  | usage
  | noDirectory (rootDir : Str)
  deriving DecidableEq, Repr

/-- The message of a refusal, where the shell has the name `self` (`$0`). -/
def ManyRefusal.message (self : Str) : ManyRefusal → Str
  | .usage => "Usage: ".toList ++ self ++ " <root_dir>".toList
  | .noDirectory rootDir => "Root directory does not exist: ".toList ++ rootDir

section Script

variable (fs : FileSystem) (cwd : Path)

/-- The words of an unquoted expansion, where `IFS` is a newline. -/
def lineWords (s : Str) : List Str := (fields Ifs.newline.splits s).flatMap (glob fs cwd)

/-- `dir_scan $directory`: only the first word is used, and is expanded once more. -/
def callOf (directory : Str) : Call :=
  let targetDirectory := (lineWords fs cwd directory).headD []
  let target := realpath fs cwd (lineWords fs cwd targetDirectory)
  ⟨.newline, target, fs.isDir cwd target⟩

/-- `-maxdepth 1 -mindepth 1 -type d` -/
def isSubdirectory (f : Found) : Bool := f.depth = 1 ∧ f.obj = some .dir

/-- `find $root_dir … -printf '%f\n'` -/
def subdirectories (rootDir : Str) : List Str :=
  (find fs cwd (expandWords fs cwd rootDir) isSubdirectory).map baseName

/-- `dirs=$(find … | sort)` -/
def dirs (rootDir : Str) : Str :=
  chomp (unlines (sortTexts (textLines (unlines (subdirectories fs cwd rootDir)))))

/-- `scan_many`: its calls of `dir_scan`. -/
def scanMany (rootDir : Str) : Except ManyRefusal (List Call) :=
  if rootDir = [] then .error .usage
  else if !fs.isDir cwd rootDir then .error (.noDirectory rootDir)
  else .ok ((lineWords fs cwd (dirs fs cwd rootDir)).map fun dir =>
    callOf fs cwd (child rootDir dir))

end Script

/-- The call of `dir_scan` that an event is. -/
def Event.call? : Event → Option Call
  | .dirScan ifs target isDirectory _ => some ⟨ifs, target, isDirectory⟩
  | _ => none

/-- Text that `IFS` does not split when it is a newline, and that is no pattern. -/
def OneWord (s : Str) : Prop := ∀ c ∈ s, c ≠ '\n' ∧ isSpecial c = false

instance (s : Str) : Decidable (OneWord s) := List.decidableBAll _ s

/-- The root is the directory `R`, and the names on the way to it and in it stay one word. -/
structure Rooted (fs : FileSystem) (cwd : Path) (rootDir : Str) (R : Path) : Prop where
  literal : Literal rootDir
  absolute : rootDir.head? = some '/'
  /-- `find` does not follow a link. -/
  entry : fs.entry cwd rootDir = some R
  dir : fs.obj R = some .dir
  way : ∀ n ∈ R, OneWord n
  names : ∀ n, fs.obj (R ++ [n]) = some .dir → OneWord n

/-- A scan of the path was started as the process `pid`, and has not ended since. -/
def Runs (run : List Event) (target : Str) (pid : ℕ) : Prop :=
  ∃ before after, run = before ++ .dirScan .newline target true pid :: after ∧ .exit pid ∉ after

/-! ### Words -/

section Words

variable {fs : FileSystem} {cwd : Path} {s t : Str}

theorem oneWord_append : OneWord (s ++ t) ↔ OneWord s ∧ OneWord t := List.forall_mem_append

theorem oneWord_of_literal (h : Literal s) : OneWord s := by
  intro c hc
  refine ⟨?_, (h c hc).2⟩
  rintro rfl
  exact newline_notMem_of_literal h hc

theorem oneWord_child (ht : OneWord t) (hs : OneWord s) : OneWord (child t s) := by
  have hslash : OneWord ['/'] := by decide
  have hchild : child t s = t ++ (['/'] ++ s) := rfl
  rw [hchild, oneWord_append, oneWord_append]
  exact ⟨ht, hslash, hs⟩

theorem oneWord_pathText {p : Path} (h : ∀ n ∈ p, OneWord n) : OneWord (pathText p) := by
  unfold pathText
  split
  · decide
  · intro c hc
    obtain ⟨n, hn, hc⟩ := List.mem_flatMap.mp hc
    rcases List.mem_cons.mp hc with rfl | hc
    · decide
    · exact h n hn c hc

theorem any_isSpecial_of_oneWord (h : OneWord s) : s.any isSpecial = false :=
  List.any_eq_false.mpr fun c hc => by simp [(h c hc).2]

theorem standsFor_of_oneWord (h : OneWord s) : standsFor s t = true → t = s := by
  rw [standsFor, any_isSpecial_of_oneWord h]
  intro heq
  exact (of_decide_eq_true heq).symm

theorem lineWords_of_oneWord (hne : s ≠ []) (h : OneWord s) : lineWords fs cwd s = [s] := by
  have hfields : fields Ifs.newline.splits s = [s] :=
    fields_eq_singleton hne fun c hc => decide_eq_false (h c hc).1
  rw [lineWords, hfields, List.flatMap_singleton, glob, any_isSpecial_of_oneWord h]
  rfl

theorem fields_newline_chomp (s : Str) :
    fields Ifs.newline.splits (chomp s) = fields Ifs.newline.splits s := by
  induction s using List.reverseRecOn with
  | nil => rfl
  | append_singleton s c ih =>
    by_cases hc : c = '\n'
    · subst hc
      rw [chomp_concat, ih, fields_append_cons (by decide), fields_nil, List.append_nil]
    · rw [chomp_concat_of_ne hc]

/-- Lines that are one word each come back as the words. -/
theorem lineWords_unlines {l : List Str} (hne : ∀ s ∈ l, s ≠ []) (h : ∀ s ∈ l, OneWord s) :
    lineWords fs cwd (chomp (unlines l)) = l := by
  have hfields : fields Ifs.newline.splits (unlines l) = l := by
    refine (fields_unlines (by decide) fun s hs c hc => decide_eq_false (h s hs c hc).1).trans ?_
    exact List.filter_eq_self.mpr fun s hs => decide_eq_true (hne s hs)
  rw [lineWords, fields_newline_chomp, hfields]
  calc l.flatMap (glob fs cwd) = l.flatMap fun s => [s] := by
        refine List.flatMap_congr fun s hs => ?_
        rw [glob, any_isSpecial_of_oneWord (h s hs)]
        rfl
    _ = l := List.flatMap_singleton' l

end Words

/-! ### The calls -/

section Calls

variable {fs : FileSystem} {cwd : Path} {rootDir : Str} {R : Path}

theorem Rooted.resolve (h : Rooted fs cwd rootDir R) : fs.resolve cwd rootDir = some R :=
  resolve_of_entry h.entry h.dir

theorem Rooted.subdirectories_eq (h : Rooted fs cwd rootDir R) : subdirectories fs cwd rootDir =
    (find fs cwd [rootDir] isSubdirectory).map baseName := by
  rw [subdirectories, expandWords_of_literal (ne_nil_of_resolve h.resolve) h.literal]

theorem Rooted.mem_subdirectories (h : Rooted fs cwd rootDir R) (n : Str) :
    n ∈ subdirectories fs cwd rootDir ↔ fs.obj (R ++ [n]) = some .dir := by
  rw [h.subdirectories_eq, List.mem_map]
  constructor
  · rintro ⟨text, htext, rfl⟩
    obtain ⟨f, hf, htest, rfl⟩ := (mem_find text).mp htext
    rcases (mem_found h.entry f).mp hf with rfl | ⟨rel, o, -, ho, rfl⟩
    · simp [isSubdirectory] at htest
    · obtain ⟨hdepth, hdir⟩ := of_decide_eq_true htest
      obtain ⟨n, rfl⟩ := List.length_eq_one_iff.mp hdepth
      have htext : rootDir ++ [n].flatMap ('/' :: ·) = child rootDir n := by simp [child]
      rw [htext, baseName_child _ (validName_of_obj ho), ho]
      exact hdir
  · intro ho
    refine ⟨child rootDir n, (mem_find _).mpr ⟨⟨child rootDir n, 1, some .dir⟩, ?_, ?_, rfl⟩,
      baseName_child _ (validName_of_obj ho)⟩
    · exact (mem_found h.entry _).mpr (.inr ⟨[n], .dir, by simp, ho, by simp [child]⟩)
    · exact decide_eq_true ⟨rfl, rfl⟩

/-- `find` comes across every entry once. -/
theorem Rooted.nodup_subdirectories (h : Rooted fs cwd rootDir R) :
    (subdirectories fs cwd rootDir).Nodup := by
  let entryAt (q : Path) : Found :=
    ⟨rootDir ++ (q.drop R.length).flatMap ('/' :: ·), q.length - R.length, fs.obj q⟩
  let below := fs.entries.keys.filter fun q => R.isPrefixOf q ∧ q ≠ R
  have hfound : found fs cwd rootDir = ⟨rootDir, 0, fs.obj R⟩ :: below.map entryAt := by
    rw [found, h.entry]
  have hnames : subdirectories fs cwd rootDir =
      (below.filter (isSubdirectory ∘ entryAt)).map (baseName ∘ Found.text ∘ entryAt) := by
    rw [h.subdirectories_eq, find, List.flatMap_singleton, hfound,
      List.filter_cons_of_neg (by simp [isSubdirectory]), List.filter_map, List.map_map,
      List.map_map]
    rfl
  have hname : ∀ q ∈ below.filter (isSubdirectory ∘ entryAt),
      q = R ++ [(baseName ∘ Found.text ∘ entryAt) q] := by
    intro q hq
    obtain ⟨hbelow, htest⟩ := List.mem_filter.mp hq
    obtain ⟨hpre, -⟩ := of_decide_eq_true (List.mem_filter.mp hbelow).2
    obtain ⟨rel, rfl⟩ := List.isPrefixOf_iff_prefix.mp hpre
    obtain ⟨hdepth, hdir⟩ := of_decide_eq_true htest
    have hlen : rel.length = 1 := by simpa [entryAt] using hdepth
    obtain ⟨n, rfl⟩ := List.length_eq_one_iff.mp hlen
    have htext : (entryAt (R ++ [n])).text = child rootDir n := by simp [entryAt, child]
    rw [Function.comp_apply, Function.comp_apply, htext, baseName_child _ (validName_of_obj hdir)]
  rw [hnames]
  refine List.Nodup.map_on ?_ ((fs.entries.nodup.filter _).filter _)
  intro q hq q' hq' heq
  rw [hname q hq, hname q' hq', heq]

theorem Rooted.oneWord_of_mem (h : Rooted fs cwd rootDir R) {n : Str}
    (hn : n ∈ subdirectories fs cwd rootDir) : OneWord n :=
  h.names n ((h.mem_subdirectories n).mp hn)

/-- A directory in the root is scanned under its path. -/
theorem Rooted.callOf_eq (h : Rooted fs cwd rootDir R) {n : Str}
    (hn : n ∈ subdirectories fs cwd rootDir) :
    callOf fs cwd (child rootDir n) = ⟨.newline, pathText (R ++ [n]), true⟩ := by
  have ho := (h.mem_subdirectories n).mp hn
  have hword := h.oneWord_of_mem hn
  have hline : lineWords fs cwd (child rootDir n) = [child rootDir n] :=
    lineWords_of_oneWord (child_ne_nil _ _) (oneWord_child (oneWord_of_literal h.literal) hword)
  have hpath : OneWord (pathText (R ++ [n])) := by
    refine oneWord_pathText fun m hm => ?_
    rcases List.mem_append.mp hm with hm | hm
    · exact h.way m hm
    · rw [List.mem_singleton.mp hm]
      exact hword
  have hreal : realpath fs cwd [child rootDir n] = pathText (R ++ [n]) :=
    realpath_of_resolve (resolve_entry_of_dir h.resolve ho) fun hmem => (hpath _ hmem).1 rfl
  unfold callOf
  rw [hline, List.headD_cons]
  dsimp only
  rw [hline, hreal, isDir_pathText ho]

/-- **The calls of `scan_many`**, one for each directory. -/
theorem scanMany_eq (h : Rooted fs cwd rootDir R) : scanMany fs cwd rootDir =
    .ok ((sortTexts (subdirectories fs cwd rootDir)).map fun n =>
      ⟨.newline, pathText (R ++ [n]), true⟩) := by
  have hmem : ∀ n, n ∈ sortTexts (subdirectories fs cwd rootDir) →
      n ∈ subdirectories fs cwd rootDir := fun n => (List.mem_insertionSort _).mp
  have hlines : textLines (unlines (subdirectories fs cwd rootDir)) =
      subdirectories fs cwd rootDir :=
    textLines_unlines fun n hn hline => (h.oneWord_of_mem hn _ hline).1 rfl
  have hdirs : lineWords fs cwd (dirs fs cwd rootDir) =
      sortTexts (subdirectories fs cwd rootDir) := by
    rw [dirs, hlines]
    refine lineWords_unlines ?_ fun n hn => h.oneWord_of_mem (hmem n hn)
    intro n hn
    exact (validName_of_obj ((h.mem_subdirectories n).mp (hmem n hn))).1
  have hisDir : fs.isDir cwd rootDir = true := by
    rw [isDir, h.resolve]
    exact decide_eq_true h.dir
  rw [scanMany, if_neg (ne_nil_of_resolve h.resolve), hisDir, hdirs]
  refine congrArg Except.ok (List.map_congr_left fun n hn => ?_)
  exact h.callOf_eq (hmem n hn)

end Calls
/-! ### Names of their own -/

theorem dashed_of_notMem {n : Str} (h : '/' ∉ n) : dashed n = n := by
  unfold dashed
  calc n.map (fun c => if c = '/' then '-' else c) = n.map id := by
        refine List.map_congr_left fun c hc => if_neg ?_
        rintro rfl
        exact h hc
    _ = n := List.map_id n

/-- Directories of one directory have different files. -/
theorem dashed_pathText_inj {R : Path} {n m : Str} (hn : '/' ∉ n) (hm : '/' ∉ m)
    (h : dashed (pathText (R ++ [n])) = dashed (pathText (R ++ [m]))) : n = m := by
  rw [pathText_concat, pathText_concat, child, child, dashed, dashed, List.map_append,
    List.map_append, List.append_cancel_left_eq, List.map_cons, List.map_cons] at h
  have hnames : dashed n = dashed m := (List.cons_eq_cons.mp h).2
  rwa [dashed_of_notMem hn, dashed_of_notMem hm] at hnames

theorem oneWord_kbFile {ending target : Str} (hending : OneWord ending) (h : OneWord target) :
    OneWord (kbFile ending target) := by
  have hdashed : OneWord (dashed target) := by
    intro c hc
    obtain ⟨d, hd, rfl⟩ := List.mem_map.mp hc
    split
    · decide
    · exact h d hd
  have hfirst : OneWord "sgt-kb_".toList := by decide
  have hfiles : OneWord "_files".toList := by decide
  unfold kbFile
  rw [oneWord_append, oneWord_append, oneWord_append]
  exact ⟨⟨⟨hfirst, hdashed⟩, hfiles⟩, hending⟩

theorem oneWord_pidFile {target : Str} (h : OneWord target) : OneWord (pidFile target) :=
  oneWord_kbFile (by decide) h

/-- Names that are no patterns stand for themselves. -/
theorem standAlone_of_oneWord {st : Kb} (hpids : ∀ k ∈ st.pids.keys, OneWord k) {target : Str}
    (h : OneWord target) : StandAlone st target where
  log _ _ := standsFor_of_oneWord (oneWord_kbFile (by decide) h)
  json _ _ := standsFor_of_oneWord (oneWord_kbFile (by decide) h)
  pid k hk := ⟨standsFor_of_oneWord (oneWord_pidFile h),
    fun hstands => (standsFor_of_oneWord (hpids k hk) hstands).symm⟩

/-- What is known of `KB_ROOT` once directories with the paths `called` have been scanned. -/
structure Called (called : List Str) (st : Kb) : Prop where
  pids : ∀ k ∈ st.pids.keys, OneWord k
  running : ∀ s ∈ st.running, dashed s.target ∈ called

theorem Called.mono {called called' : List Str} {st : Kb} (h : Called called st)
    (hsub : ∀ d ∈ called, d ∈ called') : Called called' st :=
  ⟨h.pids, fun s hs => hsub _ (h.running s hs)⟩

/-- An event that calls nothing. -/
theorem called_step {called : List Str} {st : Kb} (h : Called called st) {e : Event}
    (he : e.call? = none) : Called called (step st e) := by
  cases e with
  | dirScan ifs target isDirectory pid => cases he
  | save pid =>
    cases hfind : st.running.find? (·.pid = pid) with
    | none =>
      simp only [step, hfind]
      exact h
    | some s =>
      simp only [step, hfind]
      exact ⟨h.pids, h.running⟩
  | exit pid => exact ⟨h.pids, fun s hs => h.running s (List.mem_of_mem_filter hs)⟩
  | getPids others => exact ⟨fun k hk => h.pids k (mem_keys_of_getPids hk), h.running⟩

theorem called_dirScan {called : List Str} {st : Kb} (h : Called called st) {ifs : Ifs}
    {target : Str} {isDirectory : Bool} {pid : ℕ} (hword : OneWord target)
    (hsep : Separate st (.dirScan ifs target isDirectory pid)) :
    Called (dashed target :: called) (step st (.dirScan ifs target isDirectory pid)) := by
  have hmono : Called (dashed target :: called) st := h.mono fun d => List.mem_cons_of_mem _
  rcases step_dirScan hsep with hstep | ⟨-, -, hstep⟩
  · rw [hstep]
    exact hmono
  · rw [hstep]
    refine ⟨fun k hk => ?_, fun s hs => ?_⟩
    · rcases (Dict.mem_keys_set _ _ _ _).mp hk with rfl | hk
      · exact oneWord_pidFile hword
      · exact h.pids k hk
    · rcases List.mem_cons.mp hs with rfl | hs
      · exact List.mem_cons_self
      · exact hmono.running s hs

/-- **Scans of paths that differ by more than slashes have names of their own**, whatever else
goes on. -/
theorem meets_separate {called : List Str} {st : Kb} (h : Called called st) {run : List Event}
    (hwords : ∀ c ∈ run.filterMap Event.call?, OneWord c.target)
    (hnodup : ((run.filterMap Event.call?).map fun c => dashed c.target).Nodup)
    (hnew : ∀ c ∈ run.filterMap Event.call?, dashed c.target ∉ called) :
    Meets step Separate st run := by
  induction run generalizing called st with
  | nil => trivial
  | cons e run ih =>
    cases hcall : e.call? with
    | none =>
      rw [List.filterMap_cons_none hcall] at hwords hnodup hnew
      refine ⟨?_, ih (called_step h hcall) hwords hnodup hnew⟩
      cases e with
      | dirScan ifs target isDirectory pid => cases hcall
      | save pid => trivial
      | exit pid => trivial
      | getPids others => trivial
    | some c =>
      rw [List.filterMap_cons_some hcall, List.forall_mem_cons] at hwords hnew
      rw [List.filterMap_cons_some hcall, List.map_cons, List.nodup_cons] at hnodup
      obtain ⟨ifs, target, isDirectory, pid, rfl, rfl⟩ : ∃ ifs target isDirectory pid,
          e = .dirScan ifs target isDirectory pid ∧ c = ⟨ifs, target, isDirectory⟩ := by
        cases e with
        | dirScan ifs target isDirectory pid =>
          exact ⟨ifs, target, isDirectory, pid, rfl, (Option.some.inj hcall).symm⟩
        | save pid => cases hcall
        | exit pid => cases hcall
        | getPids others => cases hcall
      have hsep : Separate st (.dirScan ifs target isDirectory pid) := by
        intro _ _ _
        refine ⟨standAlone_of_oneWord h.pids hwords.1, fun s hs heq => ?_⟩
        exact hnew.1 (heq ▸ h.running s hs)
      refine ⟨hsep, ih (called_dirScan h hwords.1 hsep) hwords.2 hnodup.2 fun c hc hmem => ?_⟩
      rcases List.mem_cons.mp hmem with heq | hmem
      · exact hnodup.1 (List.mem_map.mpr ⟨c, hc, heq⟩)
      · exact hnew.2 c hc hmem

/-! ### The scans that run -/

/-- The scan that a call of `dir_scan` starts under its own names. -/
def scanOf (target : Str) (pid : ℕ) : Scan :=
  ⟨pid, target, outputJsonFile target, outputLogFile target⟩

theorem runs_concat {run : List Event} {e : Event} {target : Str} {pid : ℕ} :
    Runs (run ++ [e]) target pid ↔
      e = .dirScan .newline target true pid ∨ Runs run target pid ∧ e ≠ .exit pid := by
  constructor
  · rintro ⟨before, after, hrun, hexit⟩
    rcases List.eq_nil_or_concat after with rfl | ⟨after, e', rfl⟩
    · exact .inl (List.singleton_inj.mp (List.append_inj' hrun rfl).2)
    · rw [List.concat_eq_append, ← List.cons_append, ← List.append_assoc] at hrun
      obtain ⟨hrest, hlast⟩ := List.append_inj' hrun rfl
      obtain rfl := List.singleton_inj.mp hlast
      rw [List.concat_eq_append, List.mem_append, not_or, List.mem_singleton] at hexit
      exact .inr ⟨⟨before, after, hrest, hexit.1⟩, fun heq => hexit.2 heq.symm⟩
  · rintro (rfl | ⟨⟨before, after, rfl, hexit⟩, hne⟩)
    · exact ⟨run, [], rfl, List.not_mem_nil⟩
    · refine ⟨before, after ++ [e], by simp, ?_⟩
      rw [List.mem_append, not_or, List.mem_singleton]
      exact ⟨hexit, fun heq => hne heq.symm⟩

/-- A call that is not refused, of a path that is one word. -/
def Accepted (c : Call) : Prop :=
  c.ifs = .newline ∧ c.isDirectory = true ∧ c.target ≠ [] ∧ OneWord c.target

/-- What an event does to the scan of a path. -/
theorem mem_running_step {st : Kb} {e : Event} (hsep : Separate st e)
    (haccepted : ∀ c, e.call? = some c → Accepted c) (target : Str) (pid : ℕ) :
    scanOf target pid ∈ (step st e).running ↔
      e = .dirScan .newline target true pid ∨ scanOf target pid ∈ st.running ∧ e ≠ .exit pid := by
  cases e with
  | dirScan ifs target' isDirectory pid' =>
    obtain ⟨rfl, rfl, hne, hword⟩ := haccepted _ rfl
    have hsplits : target'.any Ifs.newline.splits = false :=
      List.any_eq_false.mpr fun c hc => by simpa [Ifs.splits] using (hword c hc).1
    rw [step_of_standAlone hne hsplits (hsep hne rfl hsplits).1]
    show scanOf target pid ∈ scanOf target' pid' :: st.running ↔ _
    rw [List.mem_cons]
    constructor
    · rintro (heq | hmem)
      · cases heq
        exact .inl rfl
      · exact .inr ⟨hmem, by simp⟩
    · rintro (heq | ⟨hmem, -⟩)
      · cases heq
        exact .inl rfl
      · exact .inr hmem
  | save pid' =>
    have hrunning : (step st (.save pid')).running = st.running := by
      cases hfind : st.running.find? (·.pid = pid') with
      | none => simp only [step, hfind]
      | some s =>
        simp only [step, hfind]
        rfl
    simp [hrunning]
  | exit pid' =>
    show scanOf target pid ∈ st.running.filter (·.pid ≠ pid') ↔ _
    have hpid : pid ≠ pid' ↔ Event.exit pid' ≠ .exit pid := by
      rw [Ne, Ne, Event.exit.injEq, eq_comm]
    rw [List.mem_filter, decide_eq_true_iff]
    constructor
    · rintro ⟨hmem, hne⟩
      exact .inr ⟨hmem, hpid.mp hne⟩
    · rintro (heq | ⟨hmem, hne⟩)
      · cases heq
      · exact ⟨hmem, hpid.mpr hne⟩
  | getPids others =>
    show scanOf target pid ∈ st.running ↔ _
    simp

/-- **The scans that run are those that were started and have not ended.** -/
theorem mem_running_iff {files : List Str} {nodup : files.Nodup} {run : List Event}
    (hsep : Meets step Separate (initial files nodup) run)
    (haccepted : ∀ c ∈ run.filterMap Event.call?, Accepted c) (target : Str) (pid : ℕ) :
    scanOf target pid ∈ (run.foldl step (initial files nodup)).running ↔ Runs run target pid := by
  induction run using List.reverseRecOn with
  | nil =>
    constructor
    · intro h
      cases h
    · rintro ⟨before, after, hnil, -⟩
      simp at hnil
  | append_singleton run e ih =>
    rw [meets_append] at hsep
    rw [List.filterMap_append, List.forall_mem_append] at haccepted
    have hcall : ∀ c, e.call? = some c → Accepted c := fun c hc =>
      haccepted.2 c (by rw [List.filterMap_cons_some hc]; exact List.mem_cons_self)
    rw [List.foldl_append, List.foldl_cons, List.foldl_nil, mem_running_step hsep.2.1 hcall,
      ih hsep.1 haccepted.1, runs_concat]

/-- `/r` with two directories and a file in it. -/
def twoDirs : FileSystem :=
  (((FileSystem.empty.add [] "r".toList .dir).add ["r".toList] "c".toList .dir).add ["r".toList]
    "a b".toList .dir).add ["r".toList] "f".toList (.file [])

theorem rooted_twoDirs : Rooted twoDirs [] "/r".toList ["r".toList] := by
  refine ⟨by decide, by decide, by decide +kernel, by decide +kernel, by decide, fun n hn => ?_⟩
  have hall : ∀ m ∈ twoDirs.namesIn ["r".toList], OneWord m := by decide +kernel
  exact hall n ((mem_namesIn _ _ _).mpr ⟨_, hn⟩)

end SgtKb
end Dfuser
