import Dfuser.Lib.GitConfig
import Dfuser.Lib.Lines
import Dfuser.Lib.Replace

/-!
# Submodules on another host

`scripts/submodule_update.sh` lists the urls in `.gitmodules` and rewrites those on one host
to another host and user.  Which section to write to it takes from the url: the last
component of its path, up to the first dot.  So a section is written to only if some url
names it, and a url of another one may name it, too.

The list is the second column of what `git config --get-regexp` prints, which is something
else when a section has a blank in its name.  What the script prints is left out.

## Main definitions

* `listSubmoduleUrls`, `getSubmoduleNameFromUrl`, `submoduleUpdate` — the script.
* `Updated` — each section is as it should be, and a second run changes nothing.
* `urls`, `submoduleName` — the urls that the loop rewrites, and the section of each.

## Main results

* `submoduleUpdate_eq` — the loop writes one variable in many sections.
* `updated_iff_fits` — **when the sections are as they should be.**
-/

namespace Dfuser
namespace SubmoduleUpdate

open FileSystem
open GitConfig

/-! ### The script -/

/-- What is left open: what `echo -e` makes of backslashes, and `git config` on words that
are not the name of a variable and a value. -/
structure Tools where
  interpret : Str → Str
  gitConfig : Config → List Str → Config

/-- A working directory, with no entry that a word of the script could stand for. -/
structure WorkDir where
  fs : FileSystem
  cwd : Path
  free : ∀ n ∈ fs.namesIn cwd, n ≠ "https:".toList ∧ ¬ "submodule.".toList <+: n

def githubEnterpriseUrl : Str := "https://github.northgrum.com".toList

def githubUrl : Str := "https://github.com".toList

def githubEnterpriseUser : Str := "cosgrma".toList

def githubUser : Str := "cosgroma".toList

def url : Str := "url".toList

def submodule : Str := "submodule".toList

variable (T : Tools) (W : WorkDir)

/-- The words of an unquoted text. -/
def words (text : Str) : List Str := expandWords W.fs W.cwd text

/-- `awk`, with what it prints for a line. -/
def awk (print : Str → Str) (text : Str) : Str := unlines ((textLines text).map print)

/-- `{ print $2 }` -/
def second (line : Str) : Str := ((fields isBlank line)[1]?).getD []

/-- `list_submodule_urls` -/
def listSubmoduleUrls (C : Config) : Str := awk second (unlines (getRegexp submodule url C))

/-- `get_submodule_name_from_url`, with its arguments. -/
def getSubmoduleNameFromUrl (args : List Str) : Str :=
  let out := echo T.interpret (words W (args.headD []))
  let out := awk (fun line => (line.splitOn '/').getLastD []) out
  awk (fun line => (line.splitOn '.').headD []) out

/-- The two substitutions. -/
def newSubmoduleUrl (submoduleUrl : Str) : Str :=
  replaceFirst githubUser githubEnterpriseUser
    (replaceFirst githubUrl githubEnterpriseUrl submoduleUrl)

/-- `git config --file .gitmodules --replace-all` with these words. -/
def gitConfig (C : Config) (args : List Str) : Config :=
  match args with
  | [name, value] =>
    match splitName name with
    | some (sectionName, subsection, key) =>
      if sectionName = submodule then GitConfig.replaceAll C subsection key value
      else T.gitConfig C args
    | none => T.gitConfig C args
  | _ => T.gitConfig C args

/-- One turn of the loop. -/
def step (C : Config) (submoduleUrl : Str) : Config :=
  -- `$GITHUB_URL*`: what comes next need not be a slash
  if githubUrl <+: submoduleUrl then
    let name := chomp (getSubmoduleNameFromUrl T W (words W submoduleUrl))
    gitConfig T C (words W (fullName submodule name url) ++ words W (newSubmoduleUrl submoduleUrl))
  else C

/-- The script, on the sections of `.gitmodules`. -/
def submoduleUpdate (C : Config) : Config :=
  (words W (chomp (listSubmoduleUrls C))).foldl (step T W) C

/-- The url is one on the host that is to be replaced. -/
def IsGithub (u : Str) : Prop := "https://github.com/".toList <+: u

instance (u : Str) : Decidable (IsGithub u) := inferInstanceAs (Decidable (_ <+: _))

/-- What the script is to bring about. -/
structure Updated (C : Config) : Prop where
  /-- A url on the host is rewritten. -/
  rewritten : ∀ s vars u, C.get? s = some vars → vars.get? url = some u → IsGithub u →
    (submoduleUpdate T W C).get? s = some (vars.set url (newSubmoduleUrl u))
  /-- Every other section stays. -/
  unchanged : ∀ s vars, C.get? s = some vars → (∀ u, vars.get? url = some u → ¬ IsGithub u) →
    (submoduleUpdate T W C).get? s = some vars
  notAdded : ∀ s, s ∈ (submoduleUpdate T W C).keys → s ∈ C.keys
  again : submoduleUpdate T W (submoduleUpdate T W C) = submoduleUpdate T W C

/-! ### The urls of the loop -/

/-- The section that a url is written to. -/
def submoduleName (u : Str) : Str := ((((u.splitOn '/').getLastD []).splitOn '.').headD [])

/-- The urls that the loop rewrites. -/
def urls (C : Config) : List Str :=
  ((textLines (unlines (getRegexp submodule url C))).map second).filter fun u => githubUrl <+: u

/-- A url that the loop rewrites. -/
structure IsTaken (u : Str) : Prop where
  host : githubUrl <+: u
  noBlank : ∀ c ∈ u, isBlank c = false

theorem noBlank_second (line : Str) : ∀ c ∈ second line, isBlank c = false := by
  intro c hc
  rw [second] at hc
  cases hget : (fields isBlank line)[1]? with
  | none =>
    rw [hget] at hc
    cases hc
  | some w =>
    rw [hget] at hc
    exact (mem_fields (List.mem_of_getElem? hget)).2 c hc

theorem isTaken_of_mem_urls {C : Config} {u : Str} (h : u ∈ urls C) : IsTaken u := by
  obtain ⟨hmem, hhost⟩ := List.mem_filter.mp h
  obtain ⟨line, -, rfl⟩ := List.mem_map.mp hmem
  exact ⟨of_decide_eq_true hhost, noBlank_second line⟩

/-! ### Words that stand for themselves -/

section Words

variable {W : WorkDir} {u : Str}

theorem obj_https (W : WorkDir) : W.fs.obj (W.cwd ++ ["https:".toList]) = none := by
  rw [Option.eq_none_iff_forall_ne_some]
  intro o ho
  exact (W.free _ ((mem_namesIn _ _ _).mpr ⟨o, ho⟩)).1 rfl

theorem validName_https : ValidName "https:".toList := by decide

/-- What starts like a url stands for itself, and nothing else stands for it. -/
theorem glob_https (W : WorkDir) (rest : Str) :
    glob W.fs W.cwd ("https:/".toList ++ rest) = ["https:/".toList ++ rest] ∧
      ∀ w, "https:/".toList ++ rest ∈ glob W.fs W.cwd w → "https:/".toList ++ rest = w := by
  have hchild : "https:/".toList ++ rest = child "https:".toList rest := rfl
  rw [hchild]
  exact ⟨glob_child_of_missing validName_https (obj_https W) (by decide) rest,
    fun w h => eq_of_child_mem_glob validName_https (obj_https W) h⟩

theorem exists_append_of_host {host : Str} (h : host <+: u) (hhost : "https:/".toList <+: host) :
    ∃ rest, u = "https:/".toList ++ rest := by
  obtain ⟨rest, hrest⟩ := hhost.trans h
  exact ⟨rest, hrest.symm⟩

theorem words_https {rest : Str} (h : ∀ c ∈ rest, isBlank c = false) :
    words W ("https:/".toList ++ rest) = ["https:/".toList ++ rest] := by
  apply expandWords_of_glob (by simp)
  · intro c hc
    rcases List.mem_append.mp hc with hc | hc
    · have hall : ("https:/".toList.all fun c => !isBlank c) = true := by decide
      simpa using List.all_eq_true.mp hall c hc
    · exact h c hc
  · exact (glob_https W rest).1

theorem words_of_isTaken (h : IsTaken u) : words W u = [u] := by
  obtain ⟨rest, rfl⟩ := exists_append_of_host h.host (by decide)
  exact words_https fun c hc => h.noBlank c (List.mem_append_right _ hc)

theorem newSubmoduleUrl_append (rest : Str) :
    newSubmoduleUrl (githubUrl ++ rest) =
      githubEnterpriseUrl ++ replaceFirst githubUser githubEnterpriseUser rest := by
  have htails : ∀ x ∈ githubEnterpriseUrl.tails, x ≠ [] →
      ¬ githubUser <+: x ∧ ¬ x <+: githubUser := by
    decide
  rw [newSubmoduleUrl, replaceFirst_append (by decide), replaceFirst_append_of_tails htails]

/-- The new url is on the other host. -/
theorem prefix_newSubmoduleUrl (h : githubUrl <+: u) :
    githubEnterpriseUrl <+: newSubmoduleUrl u := by
  obtain ⟨rest, rfl⟩ := h
  rw [newSubmoduleUrl_append]
  exact List.prefix_append _ _

theorem noBlank_newSubmoduleUrl (h : IsTaken u) : ∀ c ∈ newSubmoduleUrl u, isBlank c = false := by
  have hall : ((githubEnterpriseUrl ++ githubEnterpriseUser).all fun c => !isBlank c) = true := by
    decide
  have hplain : ∀ c ∈ githubEnterpriseUrl ++ githubEnterpriseUser, isBlank c = false := by
    intro c hc
    simpa using List.all_eq_true.mp hall c hc
  intro c hc
  rcases mem_replaceFirst hc with hc | hc
  · exact hplain c (List.mem_append_right _ hc)
  · rcases mem_replaceFirst hc with hc | hc
    · exact hplain c (List.mem_append_left _ hc)
    · exact h.noBlank c hc

theorem words_newSubmoduleUrl (h : IsTaken u) :
    words W (newSubmoduleUrl u) = [newSubmoduleUrl u] := by
  have hblank := noBlank_newSubmoduleUrl h
  obtain ⟨rest, hrest⟩ := exists_append_of_host (prefix_newSubmoduleUrl h.host) (by decide)
  rw [hrest] at hblank ⊢
  exact words_https fun c hc => hblank c (List.mem_append_right _ hc)

/-! ### The section of a url -/

theorem mem_getLastD_splitOn {sep c : Char} {s : Str} (h : c ∈ (s.splitOn sep).getLastD []) :
    c ∈ s ∧ c ≠ sep := by
  refine mem_of_mem_splitOn ?_ h
  rw [List.getLastD_eq_getLast?, List.getLast?_eq_some_getLast (List.splitOn_ne_nil sep s),
    Option.getD_some]
  exact List.getLast_mem _

theorem mem_headD_splitOn {sep c : Char} {s : Str} (h : c ∈ (s.splitOn sep).headD []) :
    c ∈ s ∧ c ≠ sep := by
  obtain ⟨w, ws, hws⟩ := List.exists_cons_of_ne_nil (List.splitOn_ne_nil sep s)
  have hhead : (s.splitOn sep).headD [] = w := by rw [hws]; rfl
  rw [hhead] at h
  exact mem_of_mem_splitOn (hws ▸ List.mem_cons_self) h

theorem mem_submoduleName {c : Char} (h : c ∈ submoduleName u) : c ∈ u ∧ c ≠ '/' :=
  mem_getLastD_splitOn (mem_headD_splitOn h).1

/-- A line that `awk` reads and prints. -/
theorem awk_line (print : Str → Str) {line : Str} (h : '\n' ∉ line) :
    awk print (line ++ ['\n']) = print line ++ ['\n'] := by
  have hlines : textLines (line ++ ['\n']) = [line] := by
    have hunlines : line ++ ['\n'] = unlines [line] := by simp [unlines]
    rw [hunlines, textLines_unlines]
    exact List.forall_mem_singleton.mpr h
  rw [awk, hlines]
  simp [unlines]

/-- `get_submodule_name_from_url`, on a url of the loop. -/
theorem getSubmoduleNameFromUrl_eq (T : Tools) (h : IsTaken u) :
    chomp (getSubmoduleNameFromUrl T W (words W u)) = submoduleName u := by
  have hnewline : '\n' ∉ u := fun hc => absurd (h.noBlank _ hc) (by decide)
  have hlast : '\n' ∉ (u.splitOn '/').getLastD [] := fun hc => hnewline (mem_getLastD_splitOn hc).1
  have hname : '\n' ∉ submoduleName u := fun hc => hnewline (mem_submoduleName hc).1
  have hoption : isEchoOption u = false := by
    obtain ⟨rest, rfl⟩ := h.host
    rfl
  rw [words_of_isTaken h, getSubmoduleNameFromUrl, List.headD_cons, words_of_isTaken h,
    echo_singleton hoption, awk_line _ hnewline, awk_line _ hlast, chomp_concat]
  exact chomp_of_notMem hname

theorem words_fullName (h : IsTaken u) :
    words W (fullName submodule (submoduleName u) url) =
      [fullName submodule (submoduleName u) url] := by
  have hdotted : fullName submodule (submoduleName u) url =
      "submodule.".toList ++ (submoduleName u ++ ".url".toList) := rfl
  have hchars : ∀ c ∈ fullName submodule (submoduleName u) url, isBlank c = false ∧ c ≠ '/' := by
    have hall : (("submodule.".toList ++ ".url".toList).all fun c => !isBlank c && c != '/') =
      true := by decide
    have hplain : ∀ c ∈ "submodule.".toList ++ ".url".toList, isBlank c = false ∧ c ≠ '/' := by
      intro c hc
      simpa using List.all_eq_true.mp hall c hc
    intro c hc
    rw [hdotted] at hc
    rcases List.mem_append.mp hc with hc | hc
    · exact hplain c (List.mem_append_left _ hc)
    · rcases List.mem_append.mp hc with hc | hc
      · exact ⟨h.noBlank c (mem_submoduleName hc).1, (mem_submoduleName hc).2⟩
      · exact hplain c (List.mem_append_right _ hc)
  apply expandWords_of_glob (by rw [hdotted]; simp) fun c hc => (hchars c hc).1
  apply glob_of_no_match fun hc => (hchars _ hc).2 rfl
  intro n hn
  rw [Bool.eq_false_iff]
  intro hmatch
  have hall : ("submodule.".toList.all fun c => !isSpecial c && c != '\\') = true := by decide
  rw [hdotted] at hmatch
  refine (W.free n hn).2 (prefix_of_globMatch (fun c hc => ?_) hmatch)
  simpa using List.all_eq_true.mp hall c hc

end Words

/-! ### The loop -/

/-- A turn of the loop writes one variable, for a url that it rewrites. -/
theorem step_of_isTaken (C : Config) {u : Str} (h : IsTaken u) :
    step T W C u = GitConfig.replaceAll C (submoduleName u) url (newSubmoduleUrl u) := by
  rw [step, if_pos h.host]
  dsimp only
  rw [getSubmoduleNameFromUrl_eq T h, words_fullName h, words_newSubmoduleUrl h,
    List.singleton_append, gitConfig, splitName_fullName (by decide) (by decide)]
  exact if_pos rfl

/-- Of the words that a text stands for, only the text itself can be a url. -/
theorem filter_glob (w : Str) :
    (glob W.fs W.cwd w).filter (fun u => githubUrl <+: u) =
      if githubUrl <+: w then [w] else [] := by
  have hself : ∀ u, githubUrl <+: u →
      glob W.fs W.cwd u = [u] ∧ ∀ w, u ∈ glob W.fs W.cwd w → u = w := by
    intro u hu
    obtain ⟨rest, hrest⟩ := exists_append_of_host hu (by decide)
    rw [hrest]
    exact glob_https W rest
  split
  · next hhost =>
    rw [(hself w hhost).1, List.filter_cons_of_pos (by exact decide_eq_true hhost), List.filter_nil]
  · next hhost =>
    rw [List.filter_eq_nil_iff]
    intro u hu hother
    rw [decide_eq_true_eq] at hother
    rw [(hself u hother).2 w hu] at hother
    exact hhost hother

/-- Of the words of the listing the loop takes the urls. -/
theorem filter_words (C : Config) :
    (words W (chomp (listSubmoduleUrls C))).filter (fun u => githubUrl <+: u) = urls C := by
  have hblank : ∀ w ∈ (textLines (unlines (getRegexp submodule url C))).map second, ∀ c ∈ w,
      isBlank c = false := by
    intro w hw
    obtain ⟨line, -, rfl⟩ := List.mem_map.mp hw
    exact noBlank_second line
  rw [words, expandWords, fields_chomp, listSubmoduleUrls, awk, fields_unlines (by decide) hblank,
    urls]
  generalize (textLines (unlines (getRegexp submodule url C))).map second = l
  induction l with
  | nil => rfl
  | cons w l ih =>
    cases w with
    | nil => exact ih
    | cons c w =>
      have hfilter : (List.filter (fun w : Str => w ≠ []) ((c :: w) :: l)) =
          (c :: w) :: l.filter (fun w : Str => w ≠ []) := List.filter_cons_of_pos (by simp)
      rw [hfilter, List.flatMap_cons, List.filter_append, ih, filter_glob]
      by_cases hhost : githubUrl <+: c :: w
      · rw [if_pos hhost, List.filter_cons_of_pos (by exact decide_eq_true hhost),
          List.singleton_append]
      · rw [if_neg hhost, List.filter_cons_of_neg (by rwa [decide_eq_true_eq]), List.nil_append]

/-- **The loop writes one variable in many sections.** -/
theorem submoduleUpdate_eq (C : Config) :
    submoduleUpdate T W C = replaceEach submoduleName newSubmoduleUrl url (urls C) C := by
  have hskip : ∀ (D : Config) (u : Str),
      step T W D u = if decide (githubUrl <+: u) = true then step T W D u else D := by
    intro D u
    by_cases hhost : githubUrl <+: u
    · rw [if_pos (decide_eq_true hhost)]
    · rw [if_neg (by rwa [decide_eq_true_eq]), step, if_neg hhost]
  calc submoduleUpdate T W C
      = ((words W (chomp (listSubmoduleUrls C))).filter fun u => githubUrl <+: u).foldl
        (step T W) C := by
        rw [List.foldl_filter]
        exact List.foldl_ext _ _ C fun D u _ => hskip D u
    _ = (urls C).foldl (step T W) C := by rw [filter_words]
    _ = replaceEach submoduleName newSubmoduleUrl url (urls C) C :=
        List.foldl_ext _ _ C fun D u hu => step_of_isTaken T W D (isTaken_of_mem_urls hu)

/-! ### When the sections are as they should be -/

/-- A section as it should be. -/
def rewriteSection (vars : Dict Str Str) : Dict Str Str :=
  match vars.get? url with
  | some u => if IsGithub u then vars.set url (newSubmoduleUrl u) else vars
  | none => vars

/-- The sections as they should be. -/
def rewritten (C : Config) : Config := C.mapVal rewriteSection

/-- The sections that the urls of the loop name, and what they name them with. -/
structure Fits (C : Config) : Prop where
  /-- A section that is named exists, and the last url that names it has the rewriting that
  the section is to have. -/
  named : ∀ s, ∀ u ∈ lastTo submoduleName (urls C) s,
    value? (rewritten C) s url = some (newSubmoduleUrl u)
  /-- A section with a url on the host is named. -/
  reached : ∀ s u, value? C s url = some u → IsGithub u → ∃ v ∈ urls C, submoduleName v = s
  /-- What is left of the urls, once they are rewritten, names in the same way. -/
  left : ∀ s, ∀ u ∈ lastTo submoduleName (urls (rewritten C)) s,
    value? (rewritten C) s url = some (newSubmoduleUrl u)

section Sections

variable {C : Config} {vars : Dict Str Str} {s u : Str}

theorem rewriteSection_of_isGithub (hu : vars.get? url = some u) (h : IsGithub u) :
    rewriteSection vars = vars.set url (newSubmoduleUrl u) := by
  rw [rewriteSection, hu]
  exact if_pos h

theorem rewriteSection_of_not (h : ∀ u, vars.get? url = some u → ¬ IsGithub u) :
    rewriteSection vars = vars := by
  unfold rewriteSection
  split
  · next u hu => exact if_neg (h u hu)
  · rfl

theorem get?_rewritten (C : Config) (s : Str) :
    (rewritten C).get? s = (C.get? s).map rewriteSection :=
  Dict.get?_mapVal _ _ _

theorem newSubmoduleUrl_ne (h : IsGithub u) : newSubmoduleUrl u ≠ u := by
  intro heq
  have hnew : githubEnterpriseUrl <+: newSubmoduleUrl u :=
    prefix_newSubmoduleUrl ((by decide : githubUrl <+: _).trans h)
  rw [heq] at hnew
  rcases List.prefix_or_prefix_of_prefix hnew h with hpre | hpre
  · exact absurd hpre (by decide)
  · exact absurd hpre (by decide)

/-- A section stays as it is when it should. -/
theorem rewriteSection_eq_self_iff :
    rewriteSection vars = vars ↔ ∀ u, vars.get? url = some u → ¬ IsGithub u := by
  constructor
  · intro heq u hu h
    have hget : (rewriteSection vars).get? url = some (newSubmoduleUrl u) := by
      rw [rewriteSection_of_isGithub hu h, Dict.get?_set_self]
    rw [heq, hu, Option.some.injEq] at hget
    exact newSubmoduleUrl_ne h hget.symm
  · exact rewriteSection_of_not

/-- Writing the url makes a section what it should be if that has the url. -/
theorem set_eq_rewriteSection_iff (v : Str) :
    vars.set url v = rewriteSection vars ↔ (rewriteSection vars).get? url = some v := by
  constructor
  · intro heq
    rw [← heq, Dict.get?_set_self]
  · intro hget
    by_cases hgithub : ∃ u, vars.get? url = some u ∧ IsGithub u
    · obtain ⟨u, hu, h⟩ := hgithub
      rw [rewriteSection_of_isGithub hu h] at hget ⊢
      rw [Dict.get?_set_self, Option.some.injEq] at hget
      rw [hget]
    · have hsame : rewriteSection vars = vars :=
        rewriteSection_of_not fun u hu h => hgithub ⟨u, hu, h⟩
      rw [hsame] at hget ⊢
      exact Dict.set_eq_self hget

theorem get?_submoduleUpdate_iff (s : Str) :
    (submoduleUpdate T W C).get? s = (rewritten C).get? s ↔
      (∀ u ∈ lastTo submoduleName (urls C) s,
        value? (rewritten C) s url = some (newSubmoduleUrl u)) ∧
        ∀ u, value? C s url = some u → IsGithub u → ∃ v ∈ urls C, submoduleName v = s := by
  have hisSome := lastTo_isSome_iff submoduleName (urls C) s
  rw [submoduleUpdate_eq, get?_replaceEach]
  cases hlast : lastTo submoduleName (urls C) s with
  | none =>
    have hnot : ¬ ∃ v ∈ urls C, submoduleName v = s := by
      rw [← hisSome, hlast]
      exact Bool.false_ne_true
    unfold value?
    rw [get?_rewritten]
    cases C.get? s with
    | none => simp
    | some vars =>
      simp only [Option.map_none, Option.none_or, Option.map_some, Option.some.injEq,
        Option.mem_def, reduceCtorEq, false_implies, implies_true, true_and, Option.bind_some, hnot]
      exact eq_comm.trans rewriteSection_eq_self_iff
  | some u =>
    have hnamed : ∃ v ∈ urls C, submoduleName v = s := hisSome.mp (by rw [hlast]; rfl)
    unfold value?
    rw [get?_rewritten]
    cases C.get? s with
    | none => simp
    | some vars =>
      simp only [Option.map_some, Option.some_or, Option.getD_some, Option.some.injEq,
        Option.mem_def, forall_eq', Option.bind_some, hnamed, implies_true, and_true]
      exact set_eq_rewriteSection_iff _

/-- The sections are as they should be. -/
theorem sections_iff : (∀ s, (submoduleUpdate T W C).get? s = (rewritten C).get? s) ↔
    (∀ s vars u, C.get? s = some vars → vars.get? url = some u → IsGithub u →
      (submoduleUpdate T W C).get? s = some (vars.set url (newSubmoduleUrl u))) ∧
    (∀ s vars, C.get? s = some vars → (∀ u, vars.get? url = some u → ¬ IsGithub u) →
      (submoduleUpdate T W C).get? s = some vars) ∧
    ∀ s, s ∈ (submoduleUpdate T W C).keys → s ∈ C.keys := by
  simp only [get?_rewritten]
  constructor
  · intro h
    refine ⟨?_, ?_, ?_⟩
    · intro s vars u hvars hu hgithub
      rw [h, hvars, Option.map_some, rewriteSection_of_isGithub hu hgithub]
    · intro s vars hvars hnot
      rw [h, hvars, Option.map_some, rewriteSection_of_not hnot]
    · intro s hs
      rw [Dict.mem_keys_iff] at hs ⊢
      obtain ⟨vars, hvars⟩ := hs
      rw [h, Option.map_eq_some_iff] at hvars
      exact ⟨_, hvars.choose_spec.1⟩
  · rintro ⟨hrewritten, hunchanged, hnotAdded⟩ s
    cases hvars : C.get? s with
    | none =>
      rw [Option.map_none, Dict.get?_eq_none_iff]
      intro hs
      obtain ⟨vars, hsome⟩ := (Dict.mem_keys_iff _ _).mp (hnotAdded s hs)
      rw [hvars] at hsome
      cases hsome
    | some vars =>
      rw [Option.map_some]
      by_cases hgithub : ∃ u, vars.get? url = some u ∧ IsGithub u
      · obtain ⟨u, hu, h⟩ := hgithub
        rw [hrewritten s vars u hvars hu h, rewriteSection_of_isGithub hu h]
      · have hnot : ∀ u, vars.get? url = some u → ¬ IsGithub u := fun u hu h => hgithub ⟨u, hu, h⟩
        rw [hunchanged s vars hvars hnot, rewriteSection_of_not hnot]

end Sections

/-- An empty working directory. -/
def WorkDir.empty : WorkDir := ⟨FileSystem.empty, [], by decide⟩

/-- An `echo -e` and a `git config` that do nothing. -/
def Tools.idle : Tools := ⟨id, fun C _ => C⟩

/-- A submodule that has the name of its path. -/
def pathName : Config :=
  Dict.empty.set "libs/foo".toList (Dict.empty.set url "https://github.com/cosgroma/foo".toList)

end SubmoduleUpdate
end Dfuser
