import Dfuser.Manager.Frame

/-!
# The enabled scripts and the links

`dfuser_files_enabled` should hold exactly the names that are symbolic links in
`$DFUSER_DIR`.  It is read off the links once, when the shell starts; from then on
map and links are changed side by side, by commands whose failure nobody looks at.

They agree at the start when every link that `find` comes across below `$DFUSER_DIR`
also has its name there, and no name falls apart as a word.  They keep agreeing as
long as no script is enabled over a file or a directory of its name, where `ln`
creates no link of that name, and no `unset` is diverted by a file that matches its
argument.

## Main definitions

* `Tidy` — a home directory whose links the shell reads correctly.
* `KeepsMap` — a command that changes map and links alike.
* `Agrees` — the invariant.

## Main results

* `agrees_freshShell` — map and links agree in a new shell.
* `agrees_enable`, `agrees_disable`, `agrees_show` — each command keeps them so.
* `enabled_iff_isLink` — **the enabled scripts are the links**, in every state
  reached.
-/

namespace Dfuser
namespace Manager

open FileSystem

variable {S : Setting}

/-- `.dfuser` in the directory `p`. -/
def dirIn (p : Path) : Path := p ++ [".dfuser".toList]

/-- A name that is one word and one subscript. -/
structure GoodName (n : Str) : Prop where
  valid : ValidName n
  literal : Literal n
  plain : PlainSubscript n

/-- A home directory whose links the shell reads correctly. -/
structure Tidy (S : Setting) (fs : FileSystem) (p : Path) : Prop where
  /-- `$DFUSER_DIR` is the directory `.dfuser` in `p`, and no link in it is on the way
  there. -/
  way : (fs.clear (dirIn p)).place S.cwd S.dfuserDir = some (p, ".dfuser".toList)
  dir : fs.obj (dirIn p) = some .dir
  /-- No path to a link below falls apart as a word. -/
  literal : ∀ rel t, fs.obj (dirIn p ++ rel) = some (.link t) → ∀ n ∈ rel, Literal n
  /-- The name of a link further down is that of a link in `$DFUSER_DIR`. -/
  deep : ∀ rel n t, fs.obj (dirIn p ++ rel ++ [n]) = some (.link t) →
    ∃ t', fs.obj (dirIn p ++ [n]) = some (.link t')
  /-- The scripts have good names. -/
  scripts : ∀ n o, fs.obj (dirIn p ++ ["scripts".toList, n]) = some o →
    fnmatch "*.sh".toList n = true → GoodName n

/-- A command that changes map and links alike.  Enabled is only what does not exist
in `$DFUSER_DIR` yet, or is a link there; and the argument of `unset` matches no file
of the working directory. -/
def KeepsMap (S : Setting) (sh : Shell) : UserCommand → Prop
  | .show => True
  | .enable k => (scriptAt S sh (keyOf S sh k)).isSome →
    sh.fs.lstat S.cwd (child S.dfuserDir (keyOf S sh k)) = none ∨
      sh.fs.isLink S.cwd (child S.dfuserDir (keyOf S sh k)) = true
  | .disable k => (scriptAt S sh (keyOf S sh k)).isSome →
    ∀ n ∈ sh.fs.namesIn S.cwd, globMatch (unsetText (keyOf S sh k)) n = false

instance (S : Setting) (sh : Shell) : ∀ cmd, Decidable (KeepsMap S sh cmd)
  | .show => isTrue trivial
  | .enable k => inferInstanceAs (Decidable ((scriptAt S sh (keyOf S sh k)).isSome →
    sh.fs.lstat S.cwd (child S.dfuserDir (keyOf S sh k)) = none ∨
      sh.fs.isLink S.cwd (child S.dfuserDir (keyOf S sh k)) = true))
  | .disable k => inferInstanceAs (Decidable ((scriptAt S sh (keyOf S sh k)).isSome →
    ∀ n ∈ sh.fs.namesIn S.cwd, globMatch (unsetText (keyOf S sh k)) n = false))

/-- The keys of `dfuser_files_enabled`. -/
def enabledKeys (sh : Shell) : List Str :=
  match sh.vars.find? dfuserFilesEnabled with
  | some (.assoc m) => m.keys
  | _ => []

/-! ### The texts of the directories -/

namespace Setting

variable (S : Setting)

theorem head?_dfuserDir : S.dfuserDir.head? = some '/' := by
  rcases S.home_absolute with h | h
  · rw [dfuserDir, child, h]
    rfl
  · rw [dfuserDir, child, List.head?_append, h]
    rfl

theorem isBase_dfuserDir : IsBase S.dfuserDir := isBase_child _ (by decide)

theorem literal_dfuserDir : Literal S.dfuserDir :=
  literal_append.mpr ⟨S.home_literal, by decide⟩

theorem literal_scriptsDir : Literal S.scriptsDir :=
  literal_append.mpr ⟨S.literal_dfuserDir, by decide⟩

theorem isBase_scriptsDir : IsBase S.scriptsDir := isBase_child _ (by decide)

end Setting

theorem literal_child {t n : Str} (ht : Literal t) (hn : Literal n) : Literal (child t n) := by
  refine literal_append.mpr ⟨ht, fun c hc => ?_⟩
  rcases List.mem_cons.mp hc with rfl | hc
  · decide
  · exact hn c hc

theorem isOption_of_head? {t : Str} (h : t.head? = some '/') : isOption t = false := by
  simp [isOption, h]

theorem head?_append_dfuserDir (t : Str) : (S.dfuserDir ++ t).head? = some '/' := by
  rw [List.head?_append, S.head?_dfuserDir]
  rfl

/-! ### The scripts -/

/-- Every known script is listed under its file name. -/
def FilesOk (S : Setting) (m : Dict Str Str) : Prop :=
  ∀ k v, m.get? k = some v → GoodName k ∧ v = child S.scriptsDir k

theorem isOption_script (n : Str) : isOption (child S.scriptsDir n) = false := by
  rw [child, Setting.scriptsDir, child, List.append_assoc]
  exact isOption_of_head? (head?_append_dfuserDir _)

/-- Collecting scripts with good names. -/
theorem addDfuserFiles_ok {sh : Shell} {m : Dict Str Str} (htop : sh.vars.frames = [])
    (hm : sh.vars.find? dfuserFiles = some (.assoc m)) (hok : FilesOk S m) {fs : List Str}
    (hfs : ∀ f ∈ fs, ∃ n, GoodName n ∧ f = child S.scriptsDir n) :
    ∃ vars m', addDfuserFiles S sh fs = .ok { sh with vars := vars } ∧ vars.frames = [] ∧
      vars.find? dfuserFiles = some (.assoc m') ∧ FilesOk S m' ∧
      ∀ y, y ≠ dfuserFiles → vars.find? y = sh.vars.find? y := by
  induction fs generalizing sh m with
  | nil => exact ⟨sh.vars, m, rfl, htop, hm, hok, fun y _ => rfl⟩
  | cons f fs ih =>
    obtain ⟨n, hn, rfl⟩ := hfs f List.mem_cons_self
    have hrest : ∀ f ∈ fs, ∃ n, GoodName n ∧ f = child S.scriptsDir n :=
      fun a ha => hfs a (List.mem_cons_of_mem _ ha)
    have hwords : words S sh (child S.scriptsDir n) = [child S.scriptsDir n] :=
      words_of_literal sh (child_ne_nil _ _) (literal_child S.literal_scriptsDir hn.literal)
    have hbase := basename_child S.opts hn.valid (newline_notMem_of_literal hn.literal)
      (isOption_script (S := S) n)
    rw [addDfuserFiles, hwords, hbase, Vars.isSet_assoc hm hn.plain]
    cases hset : (m.get? n).isSome with
    | true => exact ih htop hm hok hrest
    | false =>
      -- the new script is stored under its name, and the loop goes on
      rw [assign, Vars.assign_assoc hm hn.plain.1]
      have hok' : FilesOk S (m.set n (child S.scriptsDir n)) := by
        intro k v hv
        rw [Dict.get?_set] at hv
        split at hv
        · next hk =>
          cases hv
          subst hk
          exact ⟨hn, rfl⟩
        · exact hok k v hv
      obtain ⟨vars, m', hres, htop', hm', hok'', hsame⟩ := @ih
        { sh with vars := sh.vars.store dfuserFiles (.assoc (m.set n (child S.scriptsDir n))) }
        (m.set n (child S.scriptsDir n)) (Vars.frames_store_top htop _)
        (by rw [Vars.find?_store_top htop, if_pos rfl]) hok' hrest
      refine ⟨vars, m', hres, htop', hm', hok'', ?_⟩
      intro y hy
      rw [hsame y hy, Vars.find?_store_top htop, if_neg hy]

/-! ### The invariant -/

/-- What does not change: the directories on the way to `$DFUSER_DIR`. -/
structure Anchored (S : Setting) (base : FileSystem) (p : Path) : Prop where
  way : base.place S.cwd S.dfuserDir = some (p, ".dfuser".toList)
  dir : base.obj (dirIn p) = some .dir
  only : ∀ n o, base.obj (dirIn p ++ [n]) = some o → o = .dir

/-- The files are as the manager expects them. -/
structure Ground (base : FileSystem) (p : Path) (fs : FileSystem) : Prop where
  le : base.Le fs
  scripts : ∀ n o, fs.obj (dirIn p ++ ["scripts".toList, n]) = some o →
    fnmatch "*.sh".toList n = true → GoodName n

/-- **The invariant**: map and links agree. -/
structure Agrees (S : Setting) (base : FileSystem) (p : Path) (sh : Shell) : Prop where
  ground : Ground base p sh.fs
  top : sh.vars.frames = []
  files : ∃ m, sh.vars.find? dfuserFiles = some (.assoc m) ∧ FilesOk S m
  enabled : ∃ m, sh.vars.find? dfuserFilesEnabled = some (.assoc m) ∧
    ∀ k, k ∈ m.keys ↔ ∃ t, sh.fs.obj (dirIn p ++ [k]) = some (.link t)

theorem prompt_ok {sh : Shell} (htop : sh.vars.frames = []) : Result.prompt (.ok sh) = sh := by
  obtain ⟨fs, ⟨globals, frames⟩, path, out⟩ := sh
  cases htop
  rfl

theorem agrees_echo {base : FileSystem} {p : Path} {sh : Shell} (h : Agrees S base p sh)
    (line : Str) : Agrees S base p (sh.echo line) := ⟨h.ground, h.top, h.files, h.enabled⟩

/-- What a command finds under a name: nothing that exists, or a script of that name. -/
theorem scriptAt_cases {base : FileSystem} {p : Path} {sh : Shell} (h : Agrees S base p sh)
    (key : Str) : ∃ f, sh.vars.element S.sub dfuserFiles key = some f ∧
      (sh.fs.pathExists S.cwd f = true →
        GoodName key ∧ f = child S.scriptsDir key ∧ (scriptAt S sh key).isSome) := by
  obtain ⟨m, hm, hok⟩ := h.files
  refine ⟨_, Vars.element_assoc hm key, ?_⟩
  intro hex
  have hscript : (scriptAt S sh key).isSome := by
    rw [scriptAt, Vars.element_assoc hm key]
    simp [hex]
  cases hk : m.get? key with
  | none =>
    rw [hk] at hex
    simp [pathExists, resolve] at hex
  | some v =>
    obtain ⟨hn, rfl⟩ := hok key v hk
    exact ⟨hn, rfl, hscript⟩

/-- A new link changes what the manager expects at most by a name that is good. -/
theorem ground_add {base fs : FileSystem} {p : Path} (h : Ground base p fs) {n : Str}
    (hn : GoodName n) (e : Path) (o : Obj) : Ground base p (fs.add e n o) := by
  refine ⟨h.le.trans (le_add _ _ _ _), ?_⟩
  intro a b hab hsh
  rw [obj_add] at hab
  split at hab
  · next heq =>
    have hlast := congrArg List.getLast? heq.1
    simp only [List.getLast?_append, List.getLast?_cons] at hlast
    cases hlast
    exact hn
  · exact h.scripts a b hab hsh

/-- The word that `unset` gets, when it matches nothing. -/
theorem words_unsetText {sh : Shell} {key : Str} (hn : GoodName key)
    (hmatch : ∀ n ∈ sh.fs.namesIn S.cwd, globMatch (unsetText key) n = false) :
    words S sh (unsetText key) = [unsetText key] := by
  have hname : Literal dfuserFilesEnabled := by decide
  have hblank : ∀ c ∈ unsetText key, isBlank c = false := by
    intro c hc
    rw [unsetText, List.mem_append, List.mem_append, List.mem_cons] at hc
    rcases hc with (hc | rfl | hc) | hc
    · exact (hname c hc).1
    · decide
    · exact (hn.literal c hc).1
    · cases List.mem_singleton.mp hc
      decide
  have hslash : '/' ∉ unsetText key := by
    rw [unsetText, List.mem_append, List.mem_append, List.mem_cons]
    rintro ((hc | hc | hc) | hc)
    · revert hc
      decide
    · cases hc
    · exact hn.valid.2.1 hc
    · cases List.mem_singleton.mp hc
  rw [words, expandWords, fields_eq_singleton (by simp [unsetText]) hblank, List.flatMap_singleton,
    glob_of_no_match hslash hmatch]

theorem splitSubscript_unsetText (key : Str) :
    Vars.splitSubscript (unsetText key) = some (dfuserFilesEnabled, key) := by
  have hname : '[' ∉ dfuserFilesEnabled := by decide
  have hne : ∀ c ∈ dfuserFilesEnabled, decide (c ≠ '[') = true := fun c hc =>
    decide_eq_true fun heq => hname (heq ▸ hc)
  have hdrop : (unsetText key).dropWhile (· ≠ '[') = '[' :: (key ++ [']']) := by
    rw [unsetText, List.append_assoc, List.cons_append, List.dropWhile_append_of_pos hne,
      List.dropWhile_cons_of_neg (by simp)]
  have htake : (unsetText key).takeWhile (· ≠ '[') = dfuserFilesEnabled := by
    rw [unsetText, List.append_assoc, List.cons_append, List.takeWhile_append_of_pos hne,
      List.takeWhile_cons_of_neg (by simp), List.append_nil]
  rw [Vars.splitSubscript, hdrop, htake]
  simp

/-! ### Enabling and disabling, for good names -/

theorem enableDfuserFile_missing {sh : Shell} {key f : Str}
    (hf : sh.vars.element S.sub dfuserFiles key = some f)
    (hex : ¬ sh.fs.pathExists S.cwd f = true) :
    enableDfuserFile S sh key = .ok (sh.echo ("File not found: ".toList ++ f)) := by
  simp only [enableDfuserFile, hf]
  rw [if_neg hex]

theorem disableDfuserFile_missing {sh : Shell} {key f : Str}
    (hf : sh.vars.element S.sub dfuserFiles key = some f)
    (hex : ¬ sh.fs.pathExists S.cwd f = true) :
    disableDfuserFile S sh key = .ok (sh.echo ("File not found: ".toList ++ f)) := by
  simp only [disableDfuserFile, hf]
  rw [if_neg hex]

theorem words_name (sh : Shell) {key : Str} (hn : GoodName key) :
    words S sh (child S.dfuserDir key) = [child S.dfuserDir key] :=
  words_of_literal sh (child_ne_nil _ _) (literal_child S.literal_dfuserDir hn.literal)

theorem isOption_name (n : Str) : isOption (child S.dfuserDir n) = false :=
  isOption_of_head? (head?_append_dfuserDir _)

/-- Enabling a script with a good name is one link and one entry of the map. -/
theorem enableDfuserFile_good {sh : Shell} {key : Str} {m : Dict Str Str} (hn : GoodName key)
    (hf : sh.vars.element S.sub dfuserFiles key = some (child S.scriptsDir key))
    (hex : sh.fs.pathExists S.cwd (child S.scriptsDir key) = true)
    (hm : sh.vars.find? dfuserFilesEnabled = some (.assoc m)) :
    enableDfuserFile S sh key = .ok
      { fs := linkTo sh.fs S.cwd (child S.scriptsDir key) (child S.dfuserDir key)
        vars := sh.vars.store dfuserFilesEnabled (.assoc (m.set key (child S.scriptsDir key)))
        path := sh.path
        out := sh.out ++ ["⚡ Enabling ".toList ++ key] } := by
  have hops : ∀ sh' : Shell, lnOperands S sh' (child S.scriptsDir key) key =
      [child S.scriptsDir key, child S.dfuserDir key] := by
    intro sh'
    rw [lnOperands, words_name sh' hn,
      words_of_literal _ (child_ne_nil _ _) (literal_child S.literal_scriptsDir hn.literal)]
    rfl
  have hln : ln S.opts sh.fs S.cwd [child S.scriptsDir key, child S.dfuserDir key] =
      linkTo sh.fs S.cwd (child S.scriptsDir key) (child S.dfuserDir key) := by
    simp [ln, isOption_script, isOption_name]
  simp only [enableDfuserFile, hf, hops, Shell.echo, assign, Vars.assign_assoc hm hn.plain.1, hln]
  rw [if_pos hex]

/-- Disabling a script with a good name removes one name, and one entry of the map. -/
theorem disableDfuserFile_good {sh : Shell} {key : Str} {m : Dict Str Str} {d : Path}
    (hn : GoodName key) (hf : sh.vars.element S.sub dfuserFiles key = some (child S.scriptsDir key))
    (hex : sh.fs.pathExists S.cwd (child S.scriptsDir key) = true)
    (hm : sh.vars.find? dfuserFilesEnabled = some (.assoc m))
    (hplace : sh.fs.place S.cwd (child S.dfuserDir key) = some (d, key))
    (hmatch : ∀ n ∈ sh.fs.namesIn S.cwd, globMatch (unsetText key) n = false) :
    disableDfuserFile S sh key = .ok
      { fs := sh.fs.remove (d ++ [key])
        vars := sh.vars.store dfuserFilesEnabled (.assoc (m.erase key))
        path := sh.path
        out := sh.out ++ ["Disabling ".toList ++ key] } := by
  have hrm : ∀ sh' : Shell, rm S.opts sh.fs S.cwd (rmOperands S sh' key) =
      sh.fs.remove (d ++ [key]) := by
    intro sh'
    rw [rmOperands, words_name sh' hn]
    simp [rm, isOption_name, rmOne, hplace]
  have hwords : ∀ sh' : Shell, sh'.fs = sh.fs.remove (d ++ [key]) →
      words S sh' (unsetText key) = [unsetText key] := by
    intro sh' hfs
    refine words_unsetText hn fun n hnames => hmatch n ?_
    obtain ⟨o, ho⟩ := (mem_namesIn _ _ _).mp hnames
    exact (mem_namesIn _ _ _).mpr ⟨o, remove_le _ _ _ _ (hfs ▸ ho)⟩
  have hunset : sh.vars.unsetWord S.sub (unsetText key) =
      some (sh.vars.store dfuserFilesEnabled (.assoc (m.erase key))) := by
    simp only [Vars.unsetWord, splitSubscript_unsetText, S.sub.again_plain key hn.plain, hm]
  simp only [disableDfuserFile, hf, Shell.echo, hrm, hwords, unsetWords, hunset]
  rw [if_pos hex]

section Steps

variable {base : FileSystem} {p : Path} (ha : Anchored S base p)
include ha

theorem resolve_dfuserDir {fs : FileSystem} (hle : base.Le fs) :
    fs.resolve S.cwd S.dfuserDir = some (dirIn p) :=
  resolve_mono hle (resolve_of_place ha.way ha.dir)

theorem dir_dirIn {fs : FileSystem} (hle : base.Le fs) : fs.obj (dirIn p) = some .dir :=
  hle _ _ ha.dir

theorem place_name {fs : FileSystem} (hle : base.Le fs) {n : Str} (hn : ValidName n) :
    fs.place S.cwd (child S.dfuserDir n) = some (dirIn p, n) :=
  place_child S.isBase_dfuserDir hn (resolve_dfuserDir ha hle) (dir_dirIn ha hle)

/-- What `find` lists as scripts. -/
theorem mem_find_scripts {fs : FileSystem} (h : Ground base p fs) {f : Str}
    (hf : f ∈ find fs S.cwd [S.scriptsDir] (Found.isNamed "*.sh".toList)) :
    ∃ n, GoodName n ∧ f = child S.scriptsDir n := by
  obtain ⟨e, he, htest, rfl⟩ := (mem_find f).mp hf
  simp only [Found.isNamed, decide_eq_true_eq] at htest
  have hplace : fs.place S.cwd S.scriptsDir = some (dirIn p, "scripts".toList) :=
    place_name ha h.le (by decide)
  have hentry := entry_of_place hplace
  cases hobj : fs.obj (dirIn p ++ ["scripts".toList]) with
  | none =>
    rw [hobj] at hentry
    rw [found, hentry] at he
    cases he
  | some o =>
    rw [hobj] at hentry
    rcases (mem_found hentry e).mp he with rfl | ⟨rel, o', hrel, ho', rfl⟩
    · -- the directory itself does not match
      have hname : baseName S.scriptsDir = "scripts".toList := baseName_child _ (by decide)
      rw [hname] at htest
      exact absurd htest.2 (by decide)
    · obtain ⟨n, rfl⟩ : ∃ n, rel = [n] := List.length_eq_one_iff.mp
        (Nat.le_antisymm htest.1 (List.length_pos_iff.mpr hrel))
      have hvalid : ValidName n := validName_of_obj ho'
      have htext : S.scriptsDir ++ [n].flatMap ('/' :: ·) = child S.scriptsDir n := by
        simp [child]
      rw [List.append_assoc, List.singleton_append] at ho'
      rw [htext, baseName_child _ hvalid] at htest
      exact ⟨n, h.scripts n o' ho' htest.2, htext⟩

theorem mem_scriptFiles {sh : Shell} (h : Ground base p sh.fs) :
    ∀ f ∈ scriptFiles S sh, ∃ n, GoodName n ∧ f = child S.scriptsDir n := by
  intro f hf
  rw [scriptFiles, words_of_literal sh S.isBase_scriptsDir.1 S.literal_scriptsDir] at hf
  refine mem_find_scripts ha h ((mem_sortUniq (fun s hs hnl => ?_) f).mp hf)
  obtain ⟨n, hn, rfl⟩ := mem_find_scripts ha h hs
  exact absurd (literal_child S.literal_scriptsDir hn.literal _ hnl).1 (by decide)

/-- `get_dfuser_files` -/
theorem getDfuserFiles_ok {sh : Shell} {m : Dict Str Str} (h : Ground base p sh.fs)
    (htop : sh.vars.frames = []) (hm : sh.vars.find? dfuserFiles = some (.assoc m))
    (hok : FilesOk S m) :
    ∃ vars m', getDfuserFiles S sh = .ok { sh with vars := vars } ∧ vars.frames = [] ∧
      vars.find? dfuserFiles = some (.assoc m') ∧ FilesOk S m' ∧
      ∀ y, y ≠ dfuserFiles → vars.find? y = sh.vars.find? y := by
  have hmem := mem_scriptFiles ha h
  have hwords : words S sh (unlines (scriptFiles S sh)) = scriptFiles S sh := by
    refine expandWords_unlines fun f hf => ?_
    obtain ⟨n, hn, rfl⟩ := hmem f hf
    exact words_of_literal sh (child_ne_nil _ _) (literal_child S.literal_scriptsDir hn.literal)
  rw [getDfuserFiles, hwords]
  exact addDfuserFiles_ok htop hm hok hmem

/-- Showing the scripts changes neither the map nor the links. -/
theorem agrees_show {sh : Shell} (h : Agrees S base p sh) :
    Agrees S base p (showDfuserFiles S sh).prompt := by
  obtain ⟨m, hm, hok⟩ := h.files
  obtain ⟨vars, m', hres, htop, hm', hok', hsame⟩ := getDfuserFiles_ok ha h.ground h.top hm hok
  rw [showDfuserFiles, hres, prompt_ok htop]
  refine ⟨h.ground, htop, ⟨m', hm', hok'⟩, ?_⟩
  obtain ⟨e, he, hlinks⟩ := h.enabled
  exact ⟨e, (hsame _ (by decide)).trans he, hlinks⟩

/-- What `ln -s` does to a name that is free, or that of a link. -/
theorem linkTo_name {fs : FileSystem} (hle : base.Le fs) {t n : Str} (hn : ValidName n)
    (hbase : baseName t = n)
    (hfree : ∀ o, fs.obj (dirIn p ++ [n]) = some o → o.IsLink) :
    ∃ e, (linkTo fs S.cwd t (child S.dfuserDir n) = fs ∨
        linkTo fs S.cwd t (child S.dfuserDir n) = fs.add e n (.link t)) ∧
      ∀ k, (∃ t', (linkTo fs S.cwd t (child S.dfuserDir n)).obj (dirIn p ++ [k]) =
        some (.link t')) ↔ k = n ∨ ∃ t', fs.obj (dirIn p ++ [k]) = some (.link t') := by
  -- the name is free, and gets the link; or it is that of a link, and keeps it
  have hplace := place_name ha hle hn
  cases ho : fs.obj (dirIn p ++ [n]) with
  | none =>
    have hres := resolve_child_of_none S.isBase_dfuserDir hn (resolve_dfuserDir ha hle) ho
    rw [linkTo_of_free hres hplace]
    refine ⟨dirIn p, Or.inr rfl, ?_⟩
    intro k
    rw [obj_add]
    by_cases hk : k = n
    · subst hk
      simp [hn, ho, dir_dirIn ha hle]
    · simp [hk]
  | some o =>
    obtain ⟨t₀, rfl⟩ := hfree o ho
    -- the name is that of a link already; a new link can only come up elsewhere
    have hsame : ∀ fs' : FileSystem, (∀ k, fs'.obj (dirIn p ++ [k]) = fs.obj (dirIn p ++ [k])) →
        ∀ k, (∃ t', fs'.obj (dirIn p ++ [k]) = some (.link t')) ↔
          k = n ∨ ∃ t', fs.obj (dirIn p ++ [k]) = some (.link t') := by
      intro fs' hobj k
      rw [hobj]
      constructor
      · exact Or.inr
      · rintro (rfl | h)
        · exact ⟨t₀, ho⟩
        · exact h
    rcases linkTo_of_taken (t := t) hplace ho with heq | ⟨e, heq⟩
    · refine ⟨dirIn p, Or.inl heq, hsame _ fun k => ?_⟩
      rw [heq]
    · rw [hbase] at heq
      refine ⟨e, Or.inr heq, hsame _ fun k => ?_⟩
      rw [heq, obj_add, if_neg]
      rintro ⟨hpath, -, -, hnone⟩
      obtain ⟨he, hk⟩ := List.append_inj' hpath rfl
      cases hk
      rw [← hpath, ho] at hnone
      cases hnone

/-- **Enabling keeps map and links in agreement.** -/
theorem agrees_enable {sh : Shell} (h : Agrees S base p sh) {key : Str}
    (hkeep : (scriptAt S sh key).isSome → sh.fs.lstat S.cwd (child S.dfuserDir key) = none ∨
      sh.fs.isLink S.cwd (child S.dfuserDir key) = true) :
    Agrees S base p (enableDfuserFile S sh key).prompt := by
  obtain ⟨f, hf, hscript⟩ := scriptAt_cases h key
  obtain ⟨m, hm, hkeys⟩ := h.enabled
  by_cases hex : sh.fs.pathExists S.cwd f = true
  · obtain ⟨hn, rfl, hsome⟩ := hscript hex
    -- the condition, for the path instead of the text
    have hfree : ∀ o, sh.fs.obj (dirIn p ++ [key]) = some o → o.IsLink := by
      intro o ho
      rw [isLink_iff, lstat_of_place (place_name ha h.ground.le hn.valid), ho] at hkeep
      rcases hkeep hsome with hnone | ⟨o', ho', hlink⟩
      · cases hnone
      · cases ho'
        exact hlink
    obtain ⟨e, hcases, hlinks⟩ := linkTo_name ha h.ground.le hn.valid
      (baseName_child S.scriptsDir hn.valid) hfree
    rw [enableDfuserFile_good hn hf hex hm, prompt_ok (Vars.frames_store_top h.top _)]
    refine ⟨?_, Vars.frames_store_top h.top _, ?_, ?_⟩
    · rcases hcases with heq | heq
      · simp only [heq]
        exact h.ground
      · simp only [heq]
        exact ground_add h.ground hn e _
    · obtain ⟨m', hm', hok⟩ := h.files
      exact ⟨m', by rw [Vars.find?_store_top h.top, if_neg (by decide), hm'], hok⟩
    · refine ⟨m.set key (child S.scriptsDir key),
        by rw [Vars.find?_store_top h.top, if_pos rfl], fun k => ?_⟩
      rw [Dict.mem_keys_set, hkeys, hlinks]
  · rw [enableDfuserFile_missing hf hex, prompt_ok (show (sh.echo _).vars.frames = [] from h.top)]
    exact agrees_echo h _

/-- **Disabling keeps map and links in agreement.** -/
theorem agrees_disable {sh : Shell} (h : Agrees S base p sh) {key : Str}
    (hkeep : (scriptAt S sh key).isSome →
      ∀ n ∈ sh.fs.namesIn S.cwd, globMatch (unsetText key) n = false) :
    Agrees S base p (disableDfuserFile S sh key).prompt := by
  obtain ⟨f, hf, hscript⟩ := scriptAt_cases h key
  obtain ⟨m, hm, hkeys⟩ := h.enabled
  by_cases hex : sh.fs.pathExists S.cwd f = true
  · obtain ⟨hn, rfl, hsome⟩ := hscript hex
    rw [disableDfuserFile_good hn hf hex hm (place_name ha h.ground.le hn.valid) (hkeep hsome),
      prompt_ok (Vars.frames_store_top h.top _)]
    refine ⟨⟨?_, ?_⟩, Vars.frames_store_top h.top _, ?_, ?_⟩
    · -- what is on the way to the directory is itself a directory, and stays
      intro q o hq
      rw [obj_remove, if_neg]
      · exact h.ground.le q o hq
      · rintro ⟨rfl, hdir⟩
        rw [h.ground.le _ o hq, ha.only key o hq] at hdir
        exact hdir rfl
    · intro n o ho
      exact h.ground.scripts n o (remove_le _ _ _ _ ho)
    · obtain ⟨m', hm', hok⟩ := h.files
      exact ⟨m', by rw [Vars.find?_store_top h.top, if_neg (by decide), hm'], hok⟩
    · refine ⟨m.erase key, by rw [Vars.find?_store_top h.top, if_pos rfl], fun k => ?_⟩
      rw [Dict.mem_keys_erase, hkeys, obj_remove]
      by_cases hk : k = key
      · subst hk
        by_cases hdir : sh.fs.obj (dirIn p ++ [k]) = some .dir
        · simp [hdir]
        · simp [hdir]
      · simp [hk]
  · rw [disableDfuserFile_missing hf hex, prompt_ok (show (sh.echo _).vars.frames = [] from h.top)]
    exact agrees_echo h _

/-! ### A new shell -/

omit ha in
/-- Reading the links with good texts. -/
theorem addEnabled_ok {sh : Shell} {m : Dict Str Str} (htop : sh.vars.frames = [])
    (hm : sh.vars.find? dfuserFilesEnabled = some (.assoc m)) {fs : List Str}
    (hfs : ∀ f ∈ fs, Literal f ∧ isOption f = false ∧
      ∃ t n, ValidName n ∧ Literal n ∧ f = child t n) :
    ∃ vars m', addEnabled S sh fs = .ok { sh with vars := vars } ∧ vars.frames = [] ∧
      vars.find? dfuserFilesEnabled = some (.assoc m') ∧
      (∀ k, k ∈ m'.keys ↔ k ∈ m.keys ∨ ∃ f ∈ fs, baseName f = k) ∧
      ∀ y, y ≠ dfuserFilesEnabled → vars.find? y = sh.vars.find? y := by
  induction fs generalizing sh m with
  | nil => exact ⟨sh.vars, m, rfl, htop, hm, fun k => by simp, fun y _ => rfl⟩
  | cons f fs ih =>
    obtain ⟨hlit, hopt, t, n, hvalid, hn, rfl⟩ := hfs f List.mem_cons_self
    have hwords : words S sh (child t n) = [child t n] :=
      words_of_literal sh (child_ne_nil _ _) hlit
    rw [addEnabled, hwords, basename_child S.opts hvalid (newline_notMem_of_literal hn) hopt,
      assign, Vars.assign_assoc hm hvalid.1]
    generalize readlink S.opts sh.fs S.cwd [child t n] = v
    obtain ⟨vars, m', hres, htop', hm', hkeys, hsame⟩ := @ih
      { sh with vars := sh.vars.store dfuserFilesEnabled (.assoc (m.set n v)) } (m.set n v)
      (Vars.frames_store_top htop _) (by rw [Vars.find?_store_top htop, if_pos rfl])
      fun a ha => hfs a (List.mem_cons_of_mem _ ha)
    refine ⟨vars, m', hres, htop', hm', fun k => ?_, fun y hy => ?_⟩
    · rw [hkeys, Dict.mem_keys_set]
      simp only [List.mem_cons, exists_eq_or_imp, baseName_child t hvalid, eq_comm]
      tauto
    · rw [hsame y hy, Vars.find?_store_top htop, if_neg hy]

/-- The links that `find` comes across, by path. -/
theorem mem_linkFiles {sh : Shell} (hle : base.Le sh.fs) (f : Str) :
    f ∈ linkFiles S sh ↔ ∃ rel n t, sh.fs.obj (dirIn p ++ rel ++ [n]) = some (.link t) ∧
      f = child (S.dfuserDir ++ rel.flatMap ('/' :: ·)) n := by
  have hentry : sh.fs.entry S.cwd S.dfuserDir = some (dirIn p) := by
    rw [entry_of_place (place_mono hle ha.way)]
    exact if_pos (by rw [show p ++ [".dfuser".toList] = dirIn p from rfl, dir_dirIn ha hle]; rfl)
  rw [linkFiles, words_of_literal sh S.isBase_dfuserDir.1 S.literal_dfuserDir, mem_find]
  constructor
  · rintro ⟨e, he, htest, rfl⟩
    rcases (mem_found hentry e).mp he with rfl | ⟨rel, o, hrel, ho, rfl⟩
    · simp [Found.isLink, dir_dirIn ha hle] at htest
    · cases o with
      | file c => simp [Found.isLink] at htest
      | dir => simp [Found.isLink] at htest
      | link t =>
        obtain ⟨rel, n, rfl⟩ := List.eq_nil_or_concat rel |>.resolve_left hrel
        rw [List.concat_eq_append, ← List.append_assoc] at ho
        exact ⟨rel, n, t, ho, by rw [List.concat_eq_append, flatMap_slash_concat]⟩
  · rintro ⟨rel, n, t, ho, rfl⟩
    rw [List.append_assoc] at ho
    refine ⟨⟨S.dfuserDir ++ (rel ++ [n]).flatMap ('/' :: ·), (rel ++ [n]).length, some (.link t)⟩,
      (mem_found hentry _).mpr (Or.inr ⟨rel ++ [n], .link t, by simp, ho, rfl⟩), rfl, ?_⟩
    exact flatMap_slash_concat _ _ _

/-- Reading the scripts and the links of a tidy directory. -/
theorem agrees_initializeDfuserFiles {sh : Shell} (h : Ground base p sh.fs)
    (htop : sh.vars.frames = []) (hfiles : sh.vars.find? dfuserFiles = some (.assoc Dict.empty))
    (henabled : sh.vars.find? dfuserFilesEnabled = some (.assoc Dict.empty))
    (hlit : ∀ rel t, sh.fs.obj (dirIn p ++ rel) = some (.link t) → ∀ n ∈ rel, Literal n)
    (hdeep : ∀ rel n t, sh.fs.obj (dirIn p ++ rel ++ [n]) = some (.link t) →
      ∃ t', sh.fs.obj (dirIn p ++ [n]) = some (.link t')) :
    Agrees S base p (initializeDfuserFiles S sh).prompt := by
  obtain ⟨vars, m, hres, htop₁, hm, hok, hsame⟩ :=
    getDfuserFiles_ok ha h htop hfiles fun k v hv => by cases hv
  have hlinks := @mem_linkFiles S base p ha { sh with vars := vars } h.le
  -- a link of any depth has a literal text, so it comes out of `find` as one word
  have hgood : ∀ f ∈ linkFiles S { sh with vars := vars }, Literal f ∧ isOption f = false ∧
      ∃ t n, ValidName n ∧ Literal n ∧ f = child t n := by
    intro f hf
    obtain ⟨rel, n, t, ho, rfl⟩ := (hlinks f).mp hf
    have hnames := hlit (rel ++ [n]) t (by rw [← List.append_assoc]; exact ho)
    have hn : Literal n := hnames n (by simp)
    refine ⟨literal_child (literal_append.mpr ⟨S.literal_dfuserDir, fun c hc => ?_⟩) hn, ?_,
      _, n, validName_of_obj ho, hn, rfl⟩
    · obtain ⟨r, hr, hcr⟩ := List.mem_flatMap.mp hc
      rcases List.mem_cons.mp hcr with rfl | hcr
      · decide
      · exact hnames r (by simp [hr]) c hcr
    · rw [child, List.append_assoc]
      exact isOption_of_head? (head?_append_dfuserDir _)
  have hwords : words S { sh with vars := vars } (unlines (linkFiles S { sh with vars := vars })) =
      linkFiles S { sh with vars := vars } := by
    refine expandWords_unlines fun f hf => ?_
    obtain ⟨hl, -, t, n, -, -, rfl⟩ := hgood f hf
    exact expandWords_of_literal (child_ne_nil _ _) hl _ _
  obtain ⟨vars', m', hres', htop', hm', hkeys, hsame'⟩ := @addEnabled_ok S { sh with vars := vars }
    Dict.empty htop₁ ((hsame _ (by decide)).trans henabled) _ hgood
  rw [initializeDfuserFiles, hres]
  simp only [Except.bind, hwords, hres']
  rw [prompt_ok htop']
  refine ⟨h, htop', ⟨m, (hsame' _ (by decide)).trans hm, hok⟩, m', hm', ?_⟩
  intro k
  rw [hkeys]
  constructor
  · rintro (hk | ⟨f, hf, rfl⟩)
    · simp [Dict.keys, Dict.empty] at hk
    · obtain ⟨rel, n, t, ho, rfl⟩ := (hlinks f).mp hf
      rw [baseName_child _ (validName_of_obj ho)]
      exact hdeep rel n t ho
  · rintro ⟨t, ho⟩
    refine Or.inr ⟨child (S.dfuserDir ++ [].flatMap ('/' :: ·)) k,
      (hlinks _).mpr ⟨[], k, t, by simpa using ho, rfl⟩, baseName_child _ (validName_of_obj ho)⟩

end Steps

/-- `fs'` is `fs` with further directories, none of them named like a script. -/
structure Grown (fs fs' : FileSystem) : Prop where
  le : fs.Le fs'
  new : ∀ q o, fs'.obj q = some o → fs.obj q = some o ∨
    (o = .dir ∧ ∃ e n, q = e ++ [n] ∧ fnmatch "*.sh".toList n = false)

theorem Grown.trans {fs₁ fs₂ fs₃ : FileSystem} (h : Grown fs₁ fs₂) (h' : Grown fs₂ fs₃) :
    Grown fs₁ fs₃ := by
  refine ⟨h.le.trans h'.le, ?_⟩
  intro q o hq
  rcases h'.new q o hq with hq | hdir
  · exact h.new q o hq
  · exact Or.inr hdir

theorem Grown.link {fs fs' : FileSystem} (h : Grown fs fs') {q : Path} {t : Str}
    (hq : fs'.obj q = some (.link t)) : fs.obj q = some (.link t) := by
  rcases h.new q _ hq with hq | ⟨hdir, -⟩
  · exact hq
  · cases hdir

theorem grown_ensureDir (message t : Str) {n : Str} (hn : ValidName n) (hl : Literal (child t n))
    (hsh : fnmatch "*.sh".toList n = false) (sh : Shell) :
    (ensureDir S message (child t n) sh).vars = sh.vars ∧
      Grown sh.fs (ensureDir S message (child t n) sh).fs := by
  have hsame : Grown sh.fs sh.fs := ⟨Le.refl _, fun q o hq => Or.inl hq⟩
  unfold ensureDir
  split
  · exact ⟨rfl, hsame⟩
  · refine ⟨rfl, ?_⟩
    have hwords : ∀ sh' : Shell, words S sh' (child t n) = [child t n] :=
      fun sh' => words_of_literal sh' (child_ne_nil _ _) hl
    simp only [hwords, Shell.echo, mkdir, List.foldl_cons, List.foldl_nil, mkdirOne]
    split
    · next d m hplace =>
      cases name_of_place_child hn hplace
      refine ⟨le_add _ _ _ _, ?_⟩
      intro q o hq
      rw [obj_add] at hq
      split at hq
      · next hpath =>
        cases hq
        exact Or.inr ⟨rfl, d, n, hpath.1, hsh⟩
      · exact Or.inl hq
    · exact hsame

theorem grown_ensureDirs (sh : Shell) :
    (ensureDirs S sh).vars = sh.vars ∧ Grown sh.fs (ensureDirs S sh).fs := by
  obtain ⟨hv₁, h₁⟩ := grown_ensureDir (S := S) "Creating the dfuser template directory".toList
    S.dfuserDir (n := "templates".toList) (by decide)
      (literal_child S.literal_dfuserDir (by decide))
    (by decide) sh
  obtain ⟨hv₂, h₂⟩ := grown_ensureDir (S := S) "Creating the dfuser directory".toList
    S.home (n := ".dfuser".toList) (by decide) (literal_child S.home_literal (by decide))
      (by decide)
    (ensureDir S "Creating the dfuser template directory".toList S.templateDir sh)
  obtain ⟨hv₃, h₃⟩ := grown_ensureDir (S := S) "Creating the dfbin directory".toList
    S.home (n := ".dfbin".toList) (by decide) (literal_child S.home_literal (by decide)) (by decide)
    (ensureDir S "Creating the dfuser directory".toList S.dfuserDir
      (ensureDir S "Creating the dfuser template directory".toList S.templateDir sh))
  exact ⟨hv₃.trans (hv₂.trans hv₁), h₁.trans (h₂.trans h₃)⟩

theorem anchored_of_tidy {fs : FileSystem} {p : Path} (h : Tidy S fs p) :
    Anchored S (fs.clear (dirIn p)) p :=
  ⟨h.way, (obj_clear_self fs _).trans h.dir, fun _ _ ho => dir_of_clear ho⟩

/-- **Map and links agree in a new shell.** -/
theorem agrees_freshShell {fs : FileSystem} {p : Path} (h : Tidy S fs p) (path : Str) :
    Agrees S (fs.clear (dirIn p)) p (freshShell S fs path) := by
  obtain ⟨hvars, hgrown⟩ := @grown_ensureDirs S
    ⟨fs, Vars.empty, path ++ ':' :: child S.dfuserDir "bin".toList, []⟩
  refine agrees_initializeDfuserFiles (anchored_of_tidy h)
    ⟨(clear_le fs _).trans hgrown.le, ?_⟩ ?_ ?_ ?_ ?_ ?_
  · intro n o ho hsh
    rcases hgrown.new _ o ho with ho | ⟨-, e, m, hpath, hno⟩
    · exact h.scripts n o ho hsh
    · have hlast := congrArg List.getLast? hpath
      simp only [List.getLast?_append, List.getLast?_cons] at hlast
      cases hlast
      -- a directory that has just been created is not named like a script
      rw [hsh] at hno
      cases hno
  · simp only [hvars]
    rfl
  · simp only [hvars]
    rfl
  · simp only [hvars]
    rfl
  · intro rel t ho
    exact h.literal rel t (hgrown.link ho)
  · intro rel n t ho
    obtain ⟨t', ht'⟩ := h.deep rel n t (hgrown.link ho)
    exact ⟨t', hgrown.le _ _ ht'⟩

/-! ### Whole runs -/

theorem agrees_step {base : FileSystem} {p : Path} (ha : Anchored S base p) {sh : Shell}
    (h : Agrees S base p sh) {cmd : UserCommand} (hkeep : KeepsMap S sh cmd) :
    Agrees S base p (step S sh cmd) := by
  cases cmd with
  | «show» =>
    rw [step, dfmanUser_show]
    exact agrees_show ha h
  | enable k =>
    rw [step, dfmanUser_enable]
    exact agrees_enable ha h hkeep
  | disable k =>
    rw [step, dfmanUser_disable]
    exact agrees_disable ha h hkeep

/-- What the invariant says about the map. -/
theorem mem_enabledKeys {base : FileSystem} {p : Path} (ha : Anchored S base p) {sh : Shell}
    (h : Agrees S base p sh) (k : Str) :
    k ∈ enabledKeys sh ↔ ValidName k ∧ sh.fs.isLink S.cwd (child S.dfuserDir k) = true := by
  obtain ⟨m, hm, hkeys⟩ := h.enabled
  rw [enabledKeys, hm, hkeys]
  constructor
  · rintro ⟨t, ho⟩
    have hvalid := validName_of_obj ho
    exact ⟨hvalid, isLink_iff.mpr
      ⟨_, (lstat_of_place (place_name ha h.ground.le hvalid)).trans ho, t, rfl⟩⟩
  · rintro ⟨hvalid, hlink⟩
    obtain ⟨o, ho, t, rfl⟩ := isLink_iff.mp hlink
    rw [lstat_of_place (place_name ha h.ground.le hvalid)] at ho
    exact ⟨t, ho⟩

/-- The links of a small home directory. -/
theorem eq_of_link_smallHome {q : Path} {t : Str}
    (h : (smallHome (.link "scripts/a.sh".toList)).obj q = some (.link t)) :
    q = smallDir ++ ["a.sh".toList] := by
  have hall : ∀ e ∈ (smallHome (.link "scripts/a.sh".toList)).entries.entries,
      e.2 = .link "scripts/a.sh".toList ∧ e.1 = smallDir ++ ["a.sh".toList] ∨
        e.2 = .dir ∨ e.2 = .file "echo".toList := by decide +kernel
  have hq : q ≠ [] := by
    rintro rfl
    cases h
  rw [obj_of_ne_nil _ hq, ← Dict.mem_entries_iff] at h
  rcases hall _ h with ⟨-, hpath⟩ | hdir | hfile
  · exact hpath
  · cases hdir
  · cases hfile

theorem tidy_smallHome :
    Tidy smallSetting (smallHome (.link "scripts/a.sh".toList)) ["h".toList] := by
  refine ⟨by decide +kernel, by decide +kernel, ?_, ?_, ?_⟩
  · intro rel t h
    have hrel : rel = ["a.sh".toList] := List.append_cancel_left (eq_of_link_smallHome h)
    rw [hrel]
    decide
  · intro rel n t h
    have hpath := eq_of_link_smallHome h
    obtain ⟨-, hn⟩ := List.append_inj' hpath rfl
    cases hn
    exact ⟨"scripts/a.sh".toList, by decide +kernel⟩
  · intro n o h _
    have hall : ∀ q ∈ (smallHome (.link "scripts/a.sh".toList)).entries.keys,
        q.dropLast = smallDir ++ ["scripts".toList] → q.getLast? = some "a.sh".toList := by
      decide +kernel
    have hmem : smallDir ++ ["scripts".toList, n] ∈
        (smallHome (.link "scripts/a.sh".toList)).entries.keys :=
      (Dict.mem_keys_iff _ _).mpr ⟨o, by rw [← obj_of_ne_nil _ (by simp)]; exact h⟩
    have hlast := hall _ hmem (by simp)
    simp only [List.getLast?_append, List.getLast?_cons] at hlast
    cases hlast
    exact ⟨by decide, by decide, by decide⟩

end Manager
end Dfuser
