import Dfuser.Lib.Run
import Dfuser.Ini.RoundTrip
import Dfuser.Ini.Merge

/-!
# The commands on the text of files

`ini_manager.py` reads the texts of files and writes the text of a configuration over one
of them, which a later command may read again.  What `join` and `update` write is read back
as what they made: joining goes on where it stopped, and an update that is made twice leaves
the text of the first time.  This takes that the values copied from the reference have no
`%`; an interpolated value may be anything, also the text of a comment or a header.

A path is the name of one file, and what the shell prints is left out.

## Main definitions

* `joinTexts` — `join_ini_files`, on the texts of files.
* `Command`, `runCommand`, `runMain` — the commands, on files with text.

## Main results

* `own_joinTexts` — **what a join leaves**, option by option, and in which order.
* `join_groups` — **joining what has been joined** is joining everything.
* `update_again` — **an update made twice.**
* `runs_readable` — files that can be read stay so.
-/

namespace Dfuser
namespace Ini

open History (isSpace)
open Dict (appendKeys)

variable {x : OptionXform}

/-! ### The commands -/

/-- The loop of `join_ini_files`, on the texts of the files. -/
def joinTexts : Config x → List Str → Except ReadError (Config x)
  | config, [] => .ok config
  | config, text :: texts => (readText config text).bind fun config => joinTexts config texts

/-- Why a command fails. -/
inductive FileError
  | command (e : CommandError)
  | read (e : ReadError)
  deriving DecidableEq

/-- The texts of files, by their path. -/
abbrev Files := Str → Option Str

/-- The arguments of `ini_manager.py`. -/
inductive Command
  | update (target reference : Str) (output : Option Str)
  | join (paths : List Str) (output : Option Str)
  | diff (path₁ path₂ : Str)

/-- The text of a file that has to be there. -/
def openText (files : Files) (message path : Str) : Except FileError Str :=
  match files path with
  | some text => .ok text
  | none => .error (.command (.fileNotFound (message ++ path)))

/-- `--output`, unless it is empty. -/
def outputPath : Option Str → Option Str
  | some (c :: path) => some (c :: path)
  | _ => none

/-- The file `path` with another text. -/
def writeFile (files : Files) (path text : Str) : Files := Function.update files path (some text)

/-- `update_command`, `join_command` and `diff_command`: the files they leave. -/
def runCommand (x : OptionXform) (files : Files) : Command → Except FileError Files
  | .update target reference output => do
    let targetText ← openText files "Could not find target INI file: ".toList target
    let referenceText ← openText files "Could not find reference INI file: ".toList reference
    let targetConfig ← (parse x targetText).mapError .read
    let referenceConfig ← (parse x referenceText).mapError .read
    let updated ← (updateIni targetConfig referenceConfig).mapError (.command ∘ .config)
    return writeFile files ((outputPath output).getD target) (write updated)
  | .join paths output => do
    let texts ← paths.mapM (openText files "Could not find INI file: ".toList)
    let config ← (joinTexts (Config.empty : Config x) texts).mapError .read
    match outputPath output with
    | some path => return writeFile files path (write config)
    | none =>
      throw (.command (.notImplemented
        "The --output option is required for the join command.".toList))
  | .diff path₁ path₂ => do
    let text₁ ← openText files "Could not find INI file: ".toList path₁
    let text₂ ← openText files "Could not find INI file: ".toList path₂
    let config₁ ← (parse x text₁).mapError .read
    let config₂ ← (parse x text₂).mapError .read
    let _ ← (compareConfigs config₁ config₂).mapError (.command ∘ .config)
    return files

/-- `main`: a command that fails prints its error and leaves the files as they are. -/
def runMain (x : OptionXform) (files : Files) (command : Command) : Files :=
  match runCommand x files command with
  | .ok files' => files'
  | .error _ => files

/-! ### Joining texts -/

/-- **Joining texts** is reading each of them, and laying them one over the other. -/
theorem joinTexts_eq (c : Config x) (texts : List Str) :
    joinTexts c texts = (texts.mapM (parse x)).map fun files => files.foldl Config.overlay c := by
  induction texts generalizing c with
  | nil => rfl
  | cons text texts ih =>
    rw [joinTexts, readText_eq, List.mapM_cons]
    cases parse x text with
    | error e => rfl
    | ok f =>
      dsimp only [Except.map, Except.bind, bind]
      rw [ih]
      cases texts.mapM (parse x) <;> rfl

/-- The configurations of the files are joined as `join_ini_files` does it. -/
theorem joinInto_eq (c : Config x) (files : List (Config x)) :
    joinInto c files = .ok (files.foldl Config.overlay c) := by
  induction files generalizing c with
  | nil => rfl
  | cons f files ih =>
    rw [joinInto, Config.read_eq_overlay]
    exact ih (c.overlay f)

theorem eraseDups_of_nodup {l : List Str} (h : l.Nodup) : l.eraseDups = l := by
  induction l with
  | nil => rfl
  | cons a l ih =>
    obtain ⟨ha, hl⟩ := List.nodup_cons.mp h
    have hfilter : l.filter (fun b => !b == a) = l := by
      rw [List.filter_eq_self]
      intro b hb
      rw [Bool.not_eq_true', beq_eq_false_iff_ne]
      rintro rfl
      exact ha hb
    rw [List.eraseDups_cons, hfilter, ih hl]

/-- Names that are appended one list after the other stand where they came first. -/
theorem foldl_appendKeys {files : List (Config x)} {names : Config x → List Str}
    (h : ∀ f ∈ files, (names f).Nodup) :
    files.foldl (fun l f => appendKeys l (names f)) [] = (files.flatMap names).eraseDups := by
  induction files using List.reverseRecOn with
  | nil => rfl
  | append_singleton files f ih =>
    have hrest := ih fun g hg => h g (List.mem_append_left _ hg)
    have hnodup : ((names f).removeAll (files.flatMap names)).Nodup := (h f (by simp)).filter _
    have hnew : ∀ a ∈ names f,
        (!(files.flatMap names).elem a) = true ↔ a ∉ (files.flatMap names).eraseDups := by
      intro a _
      rw [List.mem_eraseDups, Bool.not_eq_true', ← Bool.not_eq_true, List.elem_iff]
    rw [List.foldl_append, List.foldl_cons, List.foldl_nil, hrest, Dict.appendKeys_eq hnew,
      List.flatMap_append, List.flatMap_singleton, List.eraseDups_append,
      eraseDups_of_nodup hnodup]
    rfl

theorem own_foldl_overlay (c : Config x) (files : List (Config x)) (s k : Str) :
    (files.foldl Config.overlay c).own s k =
      (files.reverse.findSome? fun f => f.own s k).or (c.own s k) := by
  induction files generalizing c with
  | nil => rfl
  | cons f files ih =>
    rw [List.foldl_cons, ih, Config.own_overlay, List.reverse_cons, List.findSome?_append,
      List.findSome?_singleton, Option.or_assoc]

theorem keys_foldl_overlay (c : Config x) (files : List (Config x)) :
    (files.foldl Config.overlay c).sections.keys =
        files.foldl (fun l f => appendKeys l f.sections.keys) c.sections.keys ∧
      ∀ s, (files.foldl Config.overlay c).ownKeys s =
        files.foldl (fun l f => appendKeys l (f.ownKeys s)) (c.ownKeys s) := by
  induction files generalizing c with
  | nil => exact ⟨rfl, fun _ => rfl⟩
  | cons f files ih =>
    obtain ⟨hsec, hkeys⟩ := ih (c.overlay f)
    refine ⟨hsec.trans ?_, fun s => (hkeys s).trans ?_⟩
    · rw [List.foldl_cons, (Config.keys_overlay c f).1]
    · rw [List.foldl_cons, (Config.keys_overlay c f).2]

/-- **What a join leaves**: of every option the value of the last file that has it, and the
sections and options where they came first. -/
theorem own_joinTexts {texts : List Str} {c : Config x}
    (h : joinTexts Config.empty texts = .ok c) :
    ∃ files, texts.mapM (parse x) = .ok files ∧
      (∀ s k, c.own s k = files.reverse.findSome? fun f => f.own s k) ∧
      c.sections.keys = (files.flatMap fun f => f.sections.keys).eraseDups ∧
      ∀ s, c.ownKeys s = (files.flatMap fun f => f.ownKeys s).eraseDups := by
  rw [joinTexts_eq] at h
  cases hfiles : texts.mapM (parse x) with
  | error e =>
    rw [hfiles] at h
    cases h
  | ok files =>
    rw [hfiles] at h
    cases h
    obtain ⟨hsec, hkeys⟩ := keys_foldl_overlay Config.empty files
    refine ⟨files, rfl, fun s k => ?_, ?_, fun s => ?_⟩
    · rw [own_foldl_overlay, Config.own_empty, Option.or_none]
    · exact hsec.trans (foldl_appendKeys fun f _ => f.sections.nodup)
    · rw [hkeys, Config.ownKeys_empty]
      exact foldl_appendKeys fun f _ => Config.nodup_ownKeys f s

/-- The text of a file with the option `k` in section `[s]`. -/
def oneText (v : Str) : Str := "[s]\nk = ".toList ++ v ++ "\n".toList

/-- The second of two files wins. -/
theorem own_joinTexts_pair :
    ∃ c : Config asciiLower,
      joinTexts Config.empty [oneText "1".toList, oneText "2".toList] = .ok c ∧
        c.own "s".toList "k".toList = some "2".toList := by
  have hjoin : joinTexts Config.empty [oneText "1".toList, oneText "2".toList] =
      .ok (oneOption "2".toList) := rfl
  obtain ⟨files, hfiles, hown, -⟩ := own_joinTexts hjoin
  have htwo : [oneText "1".toList, oneText "2".toList].mapM (parse asciiLower) =
      .ok [oneOption "1".toList, oneOption "2".toList] := rfl
  rw [htwo] at hfiles
  cases hfiles
  exact ⟨_, hjoin, (hown _ _).trans rfl⟩

/-! ### What can be read back -/

theorem Writable.overlay {c f : Config x} (hc : Writable c) (hf : Writable f) :
    Writable (c.overlay f) := by
  refine ⟨fun s hs => ?_, fun s k v hv => ?_⟩
  · rw [(Config.keys_overlay c f).1, Dict.mem_appendKeys] at hs
    rcases hs with hs | hs
    · exact hc.sections s hs
    · exact hf.sections s hs
  · rw [Config.own_overlay, Option.or_eq_some_iff] at hv
    rcases hv with hv | ⟨-, hv⟩
    · exact hf.items s k v hv
    · exact hc.items s k v hv

theorem writable_empty : Writable (Config.empty : Config x) where
  sections := fun s hs => by cases hs
  items := fun s k v h => by
    rw [Config.own_empty] at h
    cases h

/-- What has been joined is writable. -/
theorem writable_joinTexts (hx : KeepsMarks x) {c d : Config x} {texts : List Str}
    (hc : Writable c) (h : joinTexts c texts = .ok d) : Writable d := by
  induction texts generalizing c with
  | nil =>
    cases h
    exact hc
  | cons text texts ih =>
    rw [joinTexts, readText_eq] at h
    cases hf : parse x text with
    | error e =>
      rw [hf] at h
      cases h
    | ok f =>
      rw [hf] at h
      exact ih (hc.overlay (writable_of_parse hx hf)) h

theorem foldl_overlay (c : Config x) (files : List (Config x)) :
    files.foldl Config.overlay c = c.overlay (files.foldl Config.overlay Config.empty) := by
  induction files using List.reverseRecOn with
  | nil => exact (Config.overlay_empty c).symm
  | append_singleton files f ih =>
    rw [List.foldl_append, List.foldl_append, List.foldl_cons, List.foldl_cons, List.foldl_nil,
      List.foldl_nil, Config.overlay_overlay, ih]

/-- **Joining what has been joined**: where each of some texts has been written by joining a
group of texts, joining them is joining all the texts of the groups. -/
theorem join_groups (hx : KeepsMarks x) {groups : List (List Str)} {outputs : List Str}
    (h : List.Forall₂ (fun texts output => ∃ c : Config x,
      joinTexts Config.empty texts = .ok c ∧ output = write c) groups outputs) :
    joinTexts (Config.empty : Config x) outputs = joinTexts Config.empty groups.flatten := by
  suffices hall : ∀ c : Config x, joinTexts c outputs = joinTexts c groups.flatten by
    exact hall Config.empty
  induction h with
  | nil => exact fun c => rfl
  | @cons texts output groups outputs hfirst _ ih =>
    intro c
    obtain ⟨d, hd, rfl⟩ := hfirst
    have hback : parse x (write d) = .ok d := parse_write (writable_joinTexts hx writable_empty hd)
    rw [joinTexts_eq] at hd
    cases hfiles : texts.mapM (parse x) with
    | error e =>
      rw [hfiles] at hd
      cases hd
    | ok files =>
      rw [hfiles] at hd
      cases hd
      have hmany : joinTexts c (texts ++ groups.flatten) =
          joinTexts (files.foldl Config.overlay c) groups.flatten := by
        rw [joinTexts_eq, joinTexts_eq, List.mapM_append, hfiles]
        cases hrest : groups.flatten.mapM (parse x) with
        | error e => rfl
        | ok files' =>
          simp only [Except.map, bind, Except.bind, pure, Except.pure, List.foldl_append]
      rw [List.flatten_cons, hmany, joinTexts, readText_eq, hback]
      dsimp only [Except.map, Except.bind]
      rw [← foldl_overlay, ih]

/-- What has been joined from two files is joined with a third one. -/
theorem join_groups_pair :
    joinTexts (Config.empty : Config asciiLower)
        [write (oneOption "2".toList), write (oneOption "3".toList)] =
      joinTexts Config.empty [oneText "1".toList, oneText "2".toList, oneText "3".toList] := by
  have hgroups : List.Forall₂ (fun texts output => ∃ c : Config asciiLower,
      joinTexts Config.empty texts = .ok c ∧ output = write c)
      [[oneText "1".toList, oneText "2".toList], [oneText "3".toList]]
      [write (oneOption "2".toList), write (oneOption "3".toList)] :=
    .cons ⟨_, rfl, rfl⟩ (.cons ⟨_, rfl, rfl⟩ .nil)
  exact join_groups keepsMarks_asciiLower hgroups

/-! ### Updating -/

theorem text_of_plainConfig {r : Config x} (hr : PlainConfig r) {s k raw : Str}
    (h : r.env s k = some raw) : r.text s k = raw := by
  rw [Config.text, Config.get_of_interp h (interp_of_plain (plain_of_env hr h) 9)]

section

variable {t r u : Config x} (h : updateIni t r = .ok u)

include h

theorem own_updateIni (s k : Str) :
    u.own s k = if r.HasSection s ∧ k ∈ r.options s then some (r.text s k) else t.own s k := by
  obtain ⟨c', hc', -, hown⟩ := Config.readDict_ok (Config.copyable_of_readDict h) t
  rw [updateIni, hc'] at h
  cases h
  exact hown s k

theorem hasSection_updateIni (s : Str) : u.HasSection s ↔ r.HasSection s ∨ t.HasSection s := by
  obtain ⟨c', hc', hsec, -⟩ := Config.readDict_ok (Config.copyable_of_readDict h) t
  rw [updateIni, hc'] at h
  cases h
  exact hsec s

/-- Every value of an updated configuration is one of the two configurations. -/
theorem own_of_updateIni (hr : PlainConfig r) {s k v : Str} (hv : u.own s k = some v) :
    (∃ s', r.own s' k = some v) ∨ t.own s k = some v := by
  rw [own_updateIni h] at hv
  split at hv
  · next hvisible =>
    obtain ⟨raw, hraw⟩ := (Config.mem_options r s k).mp hvisible.2
    rw [text_of_plainConfig hr hraw] at hv
    cases hv
    rw [Config.env, Option.or_eq_some_iff] at hraw
    rcases hraw with hraw | ⟨-, hraw⟩
    · exact .inl ⟨s, hraw⟩
    · exact .inl ⟨_, hraw⟩
  · exact .inr hv

theorem writable_updateIni (ht : Writable t) (hr : Writable r) (hplain : PlainConfig r) :
    Writable u := by
  refine ⟨fun s hs => ?_, fun s k v hv => ?_⟩
  · have hne : s ≠ defaultSection := (u.names s hs).1
    rcases (hasSection_updateIni h s).mp (.inr hs) with hs | hs
    · exact hr.sections s (hs.resolve_left hne)
    · exact ht.sections s (hs.resolve_left hne)
  · rcases own_of_updateIni h hplain hv with ⟨s', hv⟩ | hv
    · exact hr.items s' k v hv
    · exact ht.items s k v hv

theorem plainConfig_updateIni (ht : PlainConfig t) (hr : PlainConfig r) : PlainConfig u := by
  intro s k v hv
  rcases own_of_updateIni h hr hv with ⟨s', hv⟩ | hv
  · exact hr s' k v hv
  · exact ht s k v hv

/-- An update of what has been updated changes nothing. -/
theorem updateIni_twice : updateIni u r = .ok u := by
  refine Config.readDict_of_own (Config.copyable_of_readDict h)
    (fun s hs => (hasSection_updateIni h s).mpr (.inl hs)) fun s hs k hk => ?_
  rw [own_updateIni h, if_pos ⟨hs, hk⟩]

end

/-- A configuration that has been updated with itself is its own update. -/
theorem updateIni_self {r u : Config x} (h : updateIni r r = .ok u) (hr : PlainConfig r) :
    updateIni u u = .ok u := by
  have hu := plainConfig_updateIni h hr hr
  have hsec : ∀ s, u.HasSection s ↔ r.HasSection s := fun s =>
    (hasSection_updateIni h s).trans (or_self_iff)
  have hcopyable : u.Copyable := by
    intro s _ k hk
    obtain ⟨raw, hraw⟩ := (Config.mem_options u s k).mp hk
    have hplain := plain_of_env hu hraw
    exact ⟨raw, Config.get_of_interp hraw (interp_of_plain hplain 9),
      Config.setCheck_of_plain hplain⟩
  refine Config.readDict_of_own hcopyable (fun s hs => hs) fun s hs k hk => ?_
  obtain ⟨raw, hraw⟩ := (Config.mem_options u s k).mp hk
  rw [text_of_plainConfig hu hraw]
  -- what a section inherits has been stored in it
  rw [Config.env, Option.or_eq_some_iff] at hraw
  rcases hraw with hraw | ⟨hnone, hraw⟩
  · exact hraw
  · rw [own_updateIni h] at hnone hraw
    have hdefault : k ∈ r.options defaultSection := by
      rw [Config.mem_options, Config.env_defaultSection]
      split at hraw
      · next hvisible =>
        obtain ⟨v, hv⟩ := (Config.mem_options r defaultSection k).mp hvisible.2
        rw [Config.env_defaultSection] at hv
        exact ⟨v, hv⟩
      · exact ⟨raw, hraw⟩
    have hvisible : k ∈ r.options s := by
      obtain ⟨v, hv⟩ := (Config.mem_options r defaultSection k).mp hdefault
      rw [Config.env_defaultSection] at hv
      rw [Config.mem_options, Config.env_eq_some_or, Config.mem_ownKeys, Config.mem_ownKeys]
      exact .inr ⟨v, hv⟩
    rw [if_pos ⟨(hsec s).mp hs, hvisible⟩] at hnone
    cases hnone

/-! ### Runs of commands -/

/-- The values in files that can be read have no `%`. -/
def Plainly (x : OptionXform) (files : Files) : Prop :=
  ∀ path text c, files path = some text → parse x text = .ok c → PlainConfig c

/-- The file is there, and its text is a configuration. -/
def Readable (x : OptionXform) (files : Files) (path : Str) : Prop :=
  ∃ text c, files path = some text ∧ parse x text = .ok c

theorem mapError_eq_ok_iff {ε ε' α : Type} {f : ε → ε'} {r : Except ε α} {a : α} :
    r.mapError f = .ok a ↔ r = .ok a := by
  cases r with
  | error e => constructor <;> intro h <;> cases h
  | ok b =>
    constructor
    · intro h
      cases h
      rfl
    · intro h
      cases h
      rfl

theorem bind_eq_ok_iff {ε α β : Type} {r : Except ε α} {f : α → Except ε β} {b : β} :
    (r >>= f) = .ok b ↔ ∃ a, r = .ok a ∧ f a = .ok b := by
  cases r with
  | error e =>
    constructor
    · intro h
      cases h
    · rintro ⟨a, ha, -⟩
      cases ha
  | ok a =>
    constructor
    · intro h
      exact ⟨a, rfl, h⟩
    · rintro ⟨a', ha, h⟩
      cases ha
      exact h

theorem openText_eq_ok_iff {files : Files} {message path text : Str} :
    openText files message path = .ok text ↔ files path = some text := by
  unfold openText
  cases files path with
  | none => constructor <;> intro h <;> cases h
  | some t =>
    constructor
    · intro h
      cases h
      rfl
    · rintro ⟨⟩
      rfl

/-- What an update reads and leaves. -/
theorem runCommand_update_iff {files files' : Files} {target reference : Str}
    {output : Option Str} :
    runCommand x files (.update target reference output) = .ok files' ↔
      ∃ targetText referenceText targetConfig referenceConfig updated,
        files target = some targetText ∧ files reference = some referenceText ∧
        parse x targetText = .ok targetConfig ∧ parse x referenceText = .ok referenceConfig ∧
        updateIni targetConfig referenceConfig = .ok updated ∧
        writeFile files ((outputPath output).getD target) (write updated) = files' := by
  simp only [runCommand, bind_eq_ok_iff, openText_eq_ok_iff, mapError_eq_ok_iff, pure, Except.pure,
    Except.ok.injEq]
  constructor
  · rintro ⟨tt, ht, rt, hr, tc, htc, rc, hrc, u, hu, hfiles⟩
    exact ⟨tt, rt, tc, rc, u, ht, hr, htc, hrc, hu, hfiles⟩
  · rintro ⟨tt, rt, tc, rc, u, ht, hr, htc, hrc, hu, hfiles⟩
    exact ⟨tt, ht, rt, hr, tc, htc, rc, hrc, u, hu, hfiles⟩

/-- What a join reads and leaves. -/
theorem runCommand_join_iff {files files' : Files} {paths : List Str} {output : Option Str} :
    runCommand x files (.join paths output) = .ok files' ↔
      ∃ texts, paths.mapM (openText files "Could not find INI file: ".toList) = .ok texts ∧
        ∃ config, joinTexts (Config.empty : Config x) texts = .ok config ∧
          ∃ path, outputPath output = some path ∧ writeFile files path (write config) = files' := by
  simp only [runCommand, bind_eq_ok_iff, mapError_eq_ok_iff]
  refine exists_congr fun texts => and_congr_right fun _ => exists_congr fun config =>
    and_congr_right fun _ => ?_
  cases outputPath output with
  | none =>
    constructor
    · intro h
      cases h
    · rintro ⟨path, hpath, -⟩
      cases hpath
  | some path =>
    constructor
    · intro h
      exact ⟨path, rfl, Except.ok.inj h⟩
    · rintro ⟨path', hpath, h⟩
      cases hpath
      exact congrArg _ h

theorem runCommand_diff {files files' : Files} {path₁ path₂ : Str}
    (h : runCommand x files (.diff path₁ path₂) = .ok files') : files' = files := by
  simp only [runCommand, bind_eq_ok_iff] at h
  obtain ⟨-, -, -, -, -, -, -, -, -, -, hfiles⟩ := h
  exact (Except.ok.inj hfiles).symm

/-- **An update made twice** leaves the files as the first one did. -/
theorem update_again (hx : KeepsMarks x) {files files' : Files} {target reference : Str}
    (hplain : ∀ text c, files reference = some text → parse x text = .ok c → PlainConfig c)
    (h : runCommand x files (.update target reference none) = .ok files') :
    runCommand x files' (.update target reference none) = .ok files' := by
  obtain ⟨tt, rt, t, r, u, htarget, href, ht, hr, hu, rfl⟩ := runCommand_update_iff.mp h
  have hrplain := hplain rt r href hr
  have hback : parse x (write u) = .ok u :=
    parse_write (writable_updateIni hu (writable_of_parse hx ht) (writable_of_parse hx hr) hrplain)
  have hwritten : writeFile files target (write u) target = some (write u) :=
    Function.update_self _ _ _
  have hsame : writeFile (writeFile files target (write u)) target (write u) =
      writeFile files target (write u) := Function.update_idem _ _ _
  rw [runCommand_update_iff]
  by_cases heq : reference = target
  · -- the reference is the file that has been written over
    subst heq
    obtain rfl : tt = rt := Option.some.inj (htarget.symm.trans href)
    obtain rfl : t = r := Except.ok.inj (ht.symm.trans hr)
    exact ⟨_, _, u, u, u, hwritten, hwritten, hback, hback, updateIni_self hu hrplain, hsame⟩
  · have hkept : writeFile files target (write u) reference = some rt :=
      (Function.update_of_ne heq _ _).trans href
    exact ⟨_, rt, u, r, u, hwritten, hkept, hback, hr, updateIni_twice hu, hsame⟩

/-- The files of the examples: a target and a reference. -/
def twoFiles : Files
  | ['t'] => some (oneText "mine".toList)
  | ['r'] => some (oneText "theirs".toList)
  | _ => none

/-- The target of the examples is updated, and then updated again. -/
theorem update_again_twoFiles :
    runCommand asciiLower (writeFile twoFiles "t".toList (oneText "theirs".toList ++ "\n".toList))
        (.update "t".toList "r".toList none) =
      .ok (writeFile twoFiles "t".toList (oneText "theirs".toList ++ "\n".toList)) := by
  have hplain : ∀ text (c : Config asciiLower), twoFiles "r".toList = some text →
      parse asciiLower text = .ok c → PlainConfig c := by
    intro text c htext hc
    cases htext
    have hone : parse asciiLower (oneText "theirs".toList) = .ok (oneOption "theirs".toList) := rfl
    rw [hone] at hc
    cases hc
    exact plainConfig_oneOption (by decide)
  exact update_again keepsMarks_asciiLower hplain rfl

theorem plainConfig_overlay {c f : Config x} (hc : PlainConfig c) (hf : PlainConfig f) :
    PlainConfig (c.overlay f) := by
  intro s k v hv
  rw [Config.own_overlay, Option.or_eq_some_iff] at hv
  rcases hv with hv | ⟨-, hv⟩
  · exact hf s k v hv
  · exact hc s k v hv

theorem plainConfig_joinTexts {c d : Config x} {texts : List Str} (hc : PlainConfig c)
    (htexts : ∀ text ∈ texts, ∀ f, parse x text = .ok f → PlainConfig f)
    (h : joinTexts c texts = .ok d) : PlainConfig d := by
  induction texts generalizing c with
  | nil =>
    cases h
    exact hc
  | cons text texts ih =>
    rw [joinTexts, readText_eq] at h
    cases hf : parse x text with
    | error e =>
      rw [hf] at h
      cases h
    | ok f =>
      rw [hf] at h
      exact ih (plainConfig_overlay hc (htexts text List.mem_cons_self f hf))
        (fun t ht => htexts t (List.mem_cons_of_mem _ ht)) h

/-- The texts of files are texts of files. -/
theorem exists_of_mem_openTexts {files : Files} {message : Str} {paths texts : List Str}
    (h : paths.mapM (openText files message) = .ok texts) :
    ∀ text ∈ texts, ∃ path, files path = some text := by
  induction paths generalizing texts with
  | nil =>
    cases h
    intro text ht
    cases ht
  | cons path paths ih =>
    rw [List.mapM_cons, bind_eq_ok_iff] at h
    obtain ⟨text, htext, h⟩ := h
    obtain ⟨texts', htexts, h⟩ := bind_eq_ok_iff.mp h
    cases h
    intro t ht
    rcases List.mem_cons.mp ht with rfl | ht
    · exact ⟨path, openText_eq_ok_iff.mp htext⟩
    · exact ih htexts t ht

/-- **What a command does to files without `%`**: nothing, or it writes one that is read back. -/
theorem runMain_cases (hx : KeepsMarks x) {files : Files} (hplain : Plainly x files)
    (command : Command) :
    runMain x files command = files ∨
      ∃ path, ∃ c : Config x, Writable c ∧ PlainConfig c ∧
        runMain x files command = writeFile files path (write c) := by
  unfold runMain
  cases h : runCommand x files command with
  | error e => exact .inl rfl
  | ok files' =>
    cases command with
    | diff path₁ path₂ => exact .inl (runCommand_diff h)
    | update target reference output =>
      obtain ⟨tt, rt, t, r, u, htarget, href, ht, hr, hu, rfl⟩ := runCommand_update_iff.mp h
      have hrplain := hplain _ rt r href hr
      exact .inr ⟨_, u, writable_updateIni hu (writable_of_parse hx ht) (writable_of_parse hx hr)
        hrplain, plainConfig_updateIni hu (hplain _ tt t htarget ht) hrplain, rfl⟩
    | join paths output =>
      obtain ⟨texts, htexts, c, hc, path, -, rfl⟩ := runCommand_join_iff.mp h
      have hempty : PlainConfig (Config.empty : Config x) := fun s k v hv => by
        rw [Config.own_empty] at hv
        cases hv
      refine .inr ⟨path, c, writable_joinTexts hx writable_empty hc,
        plainConfig_joinTexts hempty (fun text ht f hf => ?_) hc, rfl⟩
      obtain ⟨path', hpath'⟩ := exists_of_mem_openTexts htexts text ht
      exact hplain path' text f hpath' hf

theorem plainly_runMain (hx : KeepsMarks x) {files : Files} (hplain : Plainly x files)
    (command : Command) :
    Plainly x (runMain x files command) ∧
      ∀ path, Readable x files path → Readable x (runMain x files command) path := by
  rcases runMain_cases hx hplain command with heq | ⟨path, c, hc, hcplain, heq⟩
  · rw [heq]
    exact ⟨hplain, fun _ h => h⟩
  · rw [heq]
    refine ⟨fun path' text d hpath' hd => ?_, fun path' ⟨text, d, hpath', hd⟩ => ?_⟩
    · by_cases hsame : path' = path
      · rw [hsame, writeFile, Function.update_self] at hpath'
        cases hpath'
        rw [parse_write hc] at hd
        cases hd
        exact hcplain
      · rw [writeFile, Function.update_of_ne hsame] at hpath'
        exact hplain path' text d hpath' hd
    · by_cases hsame : path' = path
      · rw [hsame]
        exact ⟨write c, c, Function.update_self _ _ _, parse_write hc⟩
      · exact ⟨text, d, (Function.update_of_ne hsame _ _).trans hpath', hd⟩

/-- **No run of commands spoils a file**: where no value has a `%`, a file that can be read
stays so, whatever is written over it. -/
theorem runs_readable (hx : KeepsMarks x) {files : Files} (hplain : Plainly x files)
    (commands : List Command) {path : Str} (hread : Readable x files path) :
    Readable x (commands.foldl (runMain x) files) path := by
  induction commands generalizing files with
  | nil => exact hread
  | cons command commands ih =>
    obtain ⟨hplain', hkeep⟩ := plainly_runMain hx hplain command
    exact ih hplain' (hkeep path hread)

/-- The target of the examples can be read after it has been updated. -/
theorem runs_readable_twoFiles :
    Readable asciiLower
      ([Command.update "t".toList "r".toList none,
        .join ["t".toList, "r".toList] (some ['r'])].foldl
          (runMain asciiLower) twoFiles) "t".toList := by
  have hplain : Plainly asciiLower twoFiles := by
    intro path text c htext hc
    unfold twoFiles at htext
    split at htext
    · cases htext
      have hone : parse asciiLower (oneText "mine".toList) = .ok (oneOption "mine".toList) := rfl
      rw [hone] at hc
      cases hc
      exact plainConfig_oneOption (by decide)
    · cases htext
      have hone : parse asciiLower (oneText "theirs".toList) = .ok (oneOption "theirs".toList) :=
        rfl
      rw [hone] at hc
      cases hc
      exact plainConfig_oneOption (by decide)
    · cases htext
  exact runs_readable keepsMarks_asciiLower hplain _ ⟨_, oneOption "mine".toList, rfl, rfl⟩

end Ini
end Dfuser
