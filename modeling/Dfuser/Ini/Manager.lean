import Dfuser.Ini.Config

/-!
# The INI manager

`scripts/ini_manager.py`: `update` copies a reference configuration over a target
one, `join` reads several files into one configuration, `diff` compares two.  A
file is what `configparser` reads from it into an empty configuration.

## Main definitions

* `parseIniFile`, `updateIni`, `joinIniFiles`, `compareConfigs` — the functions.
* `updateCommand`, `joinCommand`, `diffCommand` — the commands over them.

## Main results

* `parseIniFile_ok`, `joinIniFiles_pair` — reading files, option by option.
* `compareConfigs_ok` — **what a comparison reports**, and when it reports no changed
  value.
-/

namespace Dfuser
namespace Ini

variable {x : OptionXform}

/-! ### The functions -/

/-- `parse_ini_file`. -/
def parseIniFile (file : Config x) : Except ConfigError (Config x) := Config.empty.read file

/-- `update_ini`. -/
def updateIni (target reference : Config x) : Except ConfigError (Config x) :=
  target.readDict reference

/-- The loop of `join_ini_files`. -/
def joinInto : Config x → List (Config x) → Except ConfigError (Config x)
  | config, [] => .ok config
  | config, file :: files => (config.read file).bind fun config => joinInto config files

/-- `join_ini_files`. -/
def joinIniFiles (files : List (Config x)) : Except ConfigError (Config x) :=
  joinInto Config.empty files

/-- The report of `compare_configs`. -/
structure Differences where
  sectionsAdded : Finset Str
  sectionsRemoved : Finset Str
  keysAdded : Dict Str (Finset Str)
  keysRemoved : Dict Str (Finset Str)
  changedValues : Dict Str (List Str)

/-- `differences['changed_values'].setdefault(section, []).append(key)`. -/
def Differences.addChanged (d : Differences) (s k : Str) : Differences :=
  { d with changedValues := d.changedValues.set s ((d.changedValues.get? s).getD [] ++ [k]) }

/-- The inner loop of `compare_configs`, over the options both sections show. -/
def compareValues (config1 config2 : Config x) (s : Str) :
    Differences → List Str → Except ConfigError Differences
  | d, [] => .ok d
  | d, k :: ks =>
    (config1.get s k).bind fun v₁ =>
      (config2.get s k).bind fun v₂ =>
        compareValues config1 config2 s (if v₁ ≠ v₂ then d.addChanged s k else d) ks

/-- The options sections `s` of both configurations show. -/
def commonOptions (config1 config2 : Config x) (s : Str) : List Str :=
  (config1.options s).filter (· ∈ config2.options s)

/-- The options section `s` of the second configuration shows and that of the first
does not. -/
def addedOptions (config1 config2 : Config x) (s : Str) : Finset Str :=
  (config2.options s).toFinset \ (config1.options s).toFinset

/-- The outer loop of `compare_configs`, over the sections both have. -/
def compareSections (config1 config2 : Config x) :
    Differences → List Str → Except ConfigError Differences
  | d, [] => .ok d
  | d, s :: ss =>
    (compareValues config1 config2 s
      { d with
        keysAdded := d.keysAdded.set s (addedOptions config1 config2 s)
        keysRemoved := d.keysRemoved.set s (addedOptions config2 config1 s) }
      (commonOptions config1 config2 s)).bind fun d => compareSections config1 config2 d ss

/-- The sections both configurations have. -/
def commonSections (config1 config2 : Config x) : List Str :=
  config1.sections.keys.filter (· ∈ config2.sections.keys)

/-- `compare_configs`. -/
def compareConfigs (config1 config2 : Config x) : Except ConfigError Differences :=
  compareSections config1 config2
    { sectionsAdded := config2.sections.keys.toFinset \ config1.sections.keys.toFinset
      sectionsRemoved := config1.sections.keys.toFinset \ config2.sections.keys.toFinset
      keysAdded := Dict.empty
      keysRemoved := Dict.empty
      changedValues := Dict.empty }
    (commonSections config1 config2)

/-! ### The commands -/

/-- Why a command fails. -/
inductive CommandError
  | fileNotFound (message : Str)
  | notImplemented (message : Str)
  | config (e : ConfigError)
  deriving DecidableEq

/-- A failure of a configuration is a failure of the command. -/
def liftConfig {α : Type} : Except ConfigError α → Except CommandError α
  | .ok a => .ok a
  | .error e => .error (.config e)

/-- The file a command reads, by its path. -/
def openFile (files : Str → Option (Config x)) (message path : Str) :
    Except CommandError (Config x) :=
  match files path with
  | some file => .ok file
  | none => .error (.fileNotFound (message ++ path))

/-- `update_command`: the path it writes to and the configuration it writes there. -/
def updateCommand (files : Str → Option (Config x)) (target reference : Str)
    (output : Option Str) : Except CommandError (Str × Config x) := do
  let targetFile ← openFile files "Could not find target INI file: ".toList target
  let referenceFile ← openFile files "Could not find reference INI file: ".toList reference
  let targetConfig ← liftConfig (parseIniFile targetFile)
  let referenceConfig ← liftConfig (parseIniFile referenceFile)
  let updated ← liftConfig (updateIni targetConfig referenceConfig)
  match output with
  | some (c :: path) => return (c :: path, updated)
  | _ => return (target, updated)

/-- `join_command`. -/
def joinCommand (files : Str → Option (Config x)) (paths : List Str) (output : Option Str) :
    Except CommandError (Str × Config x) := do
  let contents ← paths.mapM (openFile files "Could not find INI file: ".toList)
  let config ← liftConfig (joinIniFiles contents)
  match output with
  | some (c :: path) => return (c :: path, config)
  | _ => throw (.notImplemented "The --output option is required for the join command.".toList)

/-- `diff_command`: the report it prints. -/
def diffCommand (files : Str → Option (Config x)) (path1 path2 : Str) :
    Except CommandError Differences := do
  let file1 ← openFile files "Could not find INI file: ".toList path1
  let file2 ← openFile files "Could not find INI file: ".toList path2
  let config1 ← liftConfig (parseIniFile file1)
  let config2 ← liftConfig (parseIniFile file2)
  liftConfig (compareConfigs config1 config2)

/-! ### Configurations with the same content -/

/-- The same sections with the same raw options, in whatever order. -/
structure SameContent (c d : Config x) : Prop where
  hasSection : ∀ s, c.HasSection s ↔ d.HasSection s
  own : ∀ s k, c.own s k = d.own s k

namespace SameContent

variable {c d : Config x}

theorem env (h : SameContent c d) (s : Str) : c.env s = d.env s := by
  funext k
  rw [Config.env, Config.env, h.own, h.own]

theorem get (h : SameContent c d) (s k : Str) : c.get s k = d.get s k := by
  rw [Config.get, Config.get, h.env]

theorem text (h : SameContent c d) (s k : Str) : c.text s k = d.text s k := by
  rw [Config.text, Config.text, h.get]

theorem mem_options (h : SameContent c d) (s k : Str) : k ∈ c.options s ↔ k ∈ d.options s := by
  rw [Config.mem_options, Config.mem_options, h.env]

theorem copyable (h : SameContent c d) : c.Copyable ↔ d.Copyable := by
  unfold Config.Copyable
  simp only [h.hasSection, h.mem_options, h.get]

end SameContent

/-- Parsing a file always succeeds, with the content of the file. -/
theorem parseIniFile_ok (file : Config x) :
    ∃ c, parseIniFile file = .ok c ∧ SameContent c file := by
  obtain ⟨c, hc, hsec, hown⟩ := Config.empty.read_ok file
  refine ⟨c, hc, ?_, ?_⟩
  · intro s
    rw [hsec]
    constructor
    · rintro (h | h | h)
      · exact h
      · exact Or.inl h
      · simp [Config.empty, Dict.keys, Dict.empty] at h
    · exact Or.inl
  · intro s k
    rw [hown, Config.own_empty, Option.or_none]

/-- Joining two files succeeds; the second wins over the first. -/
theorem joinIniFiles_pair (t r : Config x) :
    ∃ j, joinIniFiles [t, r] = .ok j ∧
      (∀ s, j.HasSection s ↔ r.HasSection s ∨ t.HasSection s) ∧
      ∀ s k, j.own s k = (r.own s k).or (t.own s k) := by
  obtain ⟨c, hc, hct⟩ := parseIniFile_ok t
  obtain ⟨j, hj, hsec, hown⟩ := c.read_ok r
  refine ⟨j, ?_, ?_, ?_⟩
  · rw [parseIniFile] at hc
    simp only [joinIniFiles, joinInto, hc, Except.bind, hj]
  · intro s
    rw [hsec, hct.hasSection]
  · intro s k
    rw [hown, hct.own]

/-! ### Comparisons -/

theorem sections_mem_iff (c : Config x) {s : Str} :
    s ∈ c.sections.keys ↔ s ≠ defaultSection ∧ c.HasSection s := by
  constructor
  · intro h
    exact ⟨(c.names s h).1, Or.inr h⟩
  · rintro ⟨hne, h⟩
    exact h.resolve_left hne

theorem SameContent.mem_sections {c d : Config x} (h : SameContent c d) (s : Str) :
    s ∈ c.sections.keys ↔ s ∈ d.sections.keys := by
  rw [sections_mem_iff, sections_mem_iff, h.hasSection]

theorem mem_commonOptions (c₁ c₂ : Config x) (s k : Str) :
    k ∈ commonOptions c₁ c₂ s ↔ k ∈ c₁.options s ∧ k ∈ c₂.options s := by
  simp [commonOptions]

theorem mem_commonSections (c₁ c₂ : Config x) (s : Str) :
    s ∈ commonSections c₁ c₂ ↔ s ∈ c₁.sections.keys ∧ s ∈ c₂.sections.keys := by
  simp [commonSections]

/-- Both configurations read option `k` of section `s`, and read the same. -/
def ReadAlike (c₁ c₂ : Config x) (s k : Str) : Prop := ∃ v, c₁.get s k = .ok v ∧ c₂.get s k = .ok v

theorem SameContent.readAlike {c d : Config x} (h : SameContent c d) (u : Config x) (s k : Str) :
    ReadAlike u c s k ↔ ReadAlike u d s k := by
  rw [ReadAlike, ReadAlike, h.get]

/-- Options that read alike leave the report as it is. -/
theorem compareValues_of_readAlike {c₁ c₂ : Config x} {s : Str} (d : Differences) {ks : List Str}
    (h : ∀ k ∈ ks, ReadAlike c₁ c₂ s k) : compareValues c₁ c₂ s d ks = .ok d := by
  induction ks with
  | nil => rfl
  | cons k ks ih =>
    obtain ⟨v, h₁, h₂⟩ := h k List.mem_cons_self
    simp only [compareValues, h₁, h₂, Except.bind, ne_eq, not_true_eq_false, if_false]
    exact ih fun a ha => h a (List.mem_cons_of_mem _ ha)

/-- A changed value once reported stays reported. -/
theorem changedValues_of_compareValues {c₁ c₂ : Config x} {s : Str} {d d' : Differences}
    {ks : List Str} (h : compareValues c₁ c₂ s d ks = .ok d')
    (hempty : d'.changedValues.keys = []) :
    d.changedValues.keys = [] ∧ ∀ k ∈ ks, ReadAlike c₁ c₂ s k := by
  induction ks generalizing d with
  | nil =>
    cases h
    exact ⟨hempty, fun k hk => by cases hk⟩
  | cons k ks ih =>
    rw [compareValues] at h
    cases h₁ : c₁.get s k with
    | error e => rw [h₁] at h; cases h
    | ok v₁ =>
      cases h₂ : c₂.get s k with
      | error e => rw [h₁, h₂] at h; cases h
      | ok v₂ =>
        rw [h₁, h₂] at h
        obtain ⟨hd, hks⟩ := ih h
        by_cases hv : v₁ = v₂
        · subst hv
          rw [if_neg (by simp)] at hd
          refine ⟨hd, ?_⟩
          intro a ha
          rcases List.mem_cons.mp ha with rfl | ha
          · exact ⟨v₁, h₁, h₂⟩
          · exact hks a ha
        · rw [if_pos hv] at hd
          -- the section is a key of the report from here on
          have hmem : s ∈ (d.addChanged s k).changedValues.keys :=
            (Dict.mem_keys_set _ _ _ _).mpr (Or.inl rfl)
          rw [hd] at hmem
          cases hmem

/-- Both configurations can read option `k` of section `s`. -/
def BothRead (c₁ c₂ : Config x) (s k : Str) : Prop :=
  (∃ v, c₁.get s k = .ok v) ∧ ∃ v, c₂.get s k = .ok v

theorem ReadAlike.bothRead {c₁ c₂ : Config x} {s k : Str} (h : ReadAlike c₁ c₂ s k) :
    BothRead c₁ c₂ s k := by
  obtain ⟨v, h₁, h₂⟩ := h
  exact ⟨⟨v, h₁⟩, ⟨v, h₂⟩⟩

/-- The inner loop only adds changed values. -/
theorem compareValues_ok {c₁ c₂ : Config x} {s : Str} (d : Differences) {ks : List Str}
    (h : ∀ k ∈ ks, BothRead c₁ c₂ s k) :
    ∃ changed, compareValues c₁ c₂ s d ks = .ok { d with changedValues := changed } := by
  induction ks generalizing d with
  | nil => exact ⟨d.changedValues, rfl⟩
  | cons k ks ih =>
    obtain ⟨⟨v₁, h₁⟩, v₂, h₂⟩ := h k List.mem_cons_self
    simp only [compareValues, h₁, h₂, Except.bind]
    obtain ⟨changed, hc⟩ := ih (if v₁ ≠ v₂ then d.addChanged s k else d)
      fun a ha => h a (List.mem_cons_of_mem _ ha)
    refine ⟨changed, hc.trans ?_⟩
    split <;> rfl

/-- **The report on configurations that can be read.**  The outer loop compares the
sets of options of each section it goes through. -/
theorem compareSections_ok {c₁ c₂ : Config x} {ss : List Str}
    (h : ∀ s ∈ ss, ∀ k ∈ commonOptions c₁ c₂ s, BothRead c₁ c₂ s k) (d : Differences) :
    ∃ d', compareSections c₁ c₂ d ss = .ok d' ∧ d'.sectionsAdded = d.sectionsAdded ∧
      d'.sectionsRemoved = d.sectionsRemoved ∧
      (∀ s, d'.keysAdded.get? s =
        if s ∈ ss then some (addedOptions c₁ c₂ s) else d.keysAdded.get? s) ∧
      ∀ s, d'.keysRemoved.get? s =
        if s ∈ ss then some (addedOptions c₂ c₁ s) else d.keysRemoved.get? s := by
  induction ss generalizing d with
  | nil => exact ⟨d, rfl, rfl, rfl, fun s => by simp, fun s => by simp⟩
  | cons s ss ih =>
    obtain ⟨changed, hs⟩ := compareValues_ok
      { d with
        keysAdded := d.keysAdded.set s (addedOptions c₁ c₂ s)
        keysRemoved := d.keysRemoved.set s (addedOptions c₂ c₁ s) } (h s List.mem_cons_self)
    obtain ⟨d', hd', hadded, hremoved, hkeys, hkeys'⟩ :=
      ih (fun a ha => h a (List.mem_cons_of_mem _ ha))
        { d with
          keysAdded := d.keysAdded.set s (addedOptions c₁ c₂ s)
          keysRemoved := d.keysRemoved.set s (addedOptions c₂ c₁ s)
          changedValues := changed }
    have hset : ∀ (o : Dict Str (Finset Str)) (f : Str → Finset Str) (a : Str),
        (if a ∈ ss then some (f a) else (o.set s (f s)).get? a) =
          if a ∈ s :: ss then some (f a) else o.get? a := by
      intro o f a
      rw [Dict.get?_set]
      by_cases ha : a = s
      · simp [ha]
      · simp [ha]
    refine ⟨d', ?_, hadded, hremoved, ?_, ?_⟩
    · simp only [compareSections, hs, Except.bind]
      exact hd'
    · intro a
      rw [hkeys, hset]
    · intro a
      rw [hkeys', hset]

/-- A report is without changed values exactly when the sections read alike. -/
theorem changedValues_compareSections_iff {c₁ c₂ : Config x} {d d' : Differences} {ss : List Str}
    (h : compareSections c₁ c₂ d ss = .ok d') :
    d'.changedValues.keys = [] ↔
      d.changedValues.keys = [] ∧ ∀ s ∈ ss, ∀ k ∈ commonOptions c₁ c₂ s, ReadAlike c₁ c₂ s k := by
  induction ss generalizing d with
  | nil =>
    cases h
    simp
  | cons s ss ih =>
    rw [compareSections] at h
    cases hv : compareValues c₁ c₂ s
        { d with
          keysAdded := d.keysAdded.set s (addedOptions c₁ c₂ s)
          keysRemoved := d.keysRemoved.set s (addedOptions c₂ c₁ s) }
        (commonOptions c₁ c₂ s) with
    | error e => rw [hv] at h; cases h
    | ok d₁ =>
      rw [hv] at h
      rw [ih h]
      constructor
      · intro ⟨hd₁, hrest⟩
        obtain ⟨hd, hks⟩ := changedValues_of_compareValues hv hd₁
        refine ⟨hd, ?_⟩
        intro a ha
        rcases List.mem_cons.mp ha with rfl | ha
        · exact hks
        · exact hrest a ha
      · intro ⟨hd, halike⟩
        rw [compareValues_of_readAlike _ (halike s List.mem_cons_self)] at hv
        cases hv
        exact ⟨hd, fun a ha => halike a (List.mem_cons_of_mem _ ha)⟩

/-- The report of `compare_configs` on configurations that can be read. -/
theorem compareConfigs_ok {c₁ c₂ : Config x}
    (h : ∀ s ∈ commonSections c₁ c₂, ∀ k ∈ commonOptions c₁ c₂ s, BothRead c₁ c₂ s k) :
    ∃ d, compareConfigs c₁ c₂ = .ok d ∧
      d.sectionsAdded = c₂.sections.keys.toFinset \ c₁.sections.keys.toFinset ∧
      d.sectionsRemoved = c₁.sections.keys.toFinset \ c₂.sections.keys.toFinset ∧
      (∀ s ks, d.keysAdded.get? s = some ks ↔
        s ∈ commonSections c₁ c₂ ∧ ks = addedOptions c₁ c₂ s) ∧
      (∀ s ks, d.keysRemoved.get? s = some ks ↔
        s ∈ commonSections c₁ c₂ ∧ ks = addedOptions c₂ c₁ s) ∧
      (d.changedValues.keys = [] ↔
        ∀ s ∈ commonSections c₁ c₂, ∀ k ∈ commonOptions c₁ c₂ s, ReadAlike c₁ c₂ s k) := by
  obtain ⟨d, hd, hadded, hremoved, hkeys, hkeys'⟩ := compareSections_ok h
    { sectionsAdded := c₂.sections.keys.toFinset \ c₁.sections.keys.toFinset
      sectionsRemoved := c₁.sections.keys.toFinset \ c₂.sections.keys.toFinset
      keysAdded := Dict.empty
      keysRemoved := Dict.empty
      changedValues := Dict.empty }
  have hlookup : ∀ (f : Str → Finset Str) (s : Str) (ks : Finset Str),
      (if s ∈ commonSections c₁ c₂ then some (f s) else none) = some ks ↔
        s ∈ commonSections c₁ c₂ ∧ ks = f s := by
    intro f s ks
    by_cases hs : s ∈ commonSections c₁ c₂
    · simp [hs, eq_comm]
    · simp [hs]
  refine ⟨d, hd, hadded, hremoved, ?_, ?_, ?_⟩
  · intro s ks
    rw [hkeys]
    exact hlookup _ s ks
  · intro s ks
    rw [hkeys']
    exact hlookup _ s ks
  · rw [changedValues_compareSections_iff hd]
    exact and_iff_right rfl

end Ini
end Dfuser
