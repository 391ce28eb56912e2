import Dfuser.Dotdir.Gradient
import Dfuser.Dotdir.Walk

/-!
# The graph of a directory

`main` of `scripts/bash/dotdir` draws the directory it is given or started in: a node
for the directory itself, at level `0`, and below it what `process_path` adds.  The
names of the nodes begin with the components of its absolute path from the user's name
on.

The level of a directory picks its colour from the ten of the gradient, and how many
levels are walked is up to the caller.

## Main definitions

* `Arguments`, `Root` — the options, and the directory to draw.
* `main` — the program, up to the graph it writes.
* `TooDeep` — a directory is reached for which the gradient has no colour.

## Main results

* `main_eq_ok` — the nodes and edges of the graph.
* `exists_processPath_iff` — when a walk returns.
* `main_colours_iff` — **the colour lookup fails exactly if the tree is too deep.**
-/

namespace Dfuser
namespace Dotdir

/-! ### The program -/

/-- `MAX_LEVEL`. -/
def maxLevelDefault : ℤ := 3

/-- The options: `--level`, where it is given, as a number, and `--dirs-only`. -/
structure Arguments where
  level : Option ℤ
  dirsOnly : Bool
  deriving DecidableEq, Repr

/-- `max_level`. -/
def Arguments.maxLevel (arguments : Arguments) : ℤ := arguments.level.getD maxLevelDefault

/-- The directory `root_path` names: the names down to it from the root of the file
system, its base name as it was given, and what is in it. -/
structure Root where
  components : List Str
  basename : Str
  contents : Listing Str
  unique : contents.Unique

/-- `os.path.abspath(root_path).split(os.sep)`: the first part is empty, and at the
root of the file system so is the second. -/
def Root.parts (root : Root) : List Str :=
  [] :: if root.components = [] then [[]] else root.components

/-- The parts from the user's name on, `tree_history[tree_history.index(username):]`. -/
def treeHistory (parts : List Str) (username : Option Str) : Option (List Str) := do
  let username ← username
  let homeIndex ← parts.idxOf? username
  return parts.drop homeIndex

/-- How `main` can fail: `PATH` is no directory, the path does not lead through the
home of the user, or the walk fails. -/
inductive MainError
  | unboundLocalError
  | valueError
  | walk (e : PyError)
  deriving DecidableEq, Repr

section

variable (lower : Str → Str)

/-- The part of `main` that draws. -/
def draw (arguments : Arguments) (root : Root) (history : List Str) : Except PyError Graph := do
  let g ← addFolder (.new history arguments.dirsOnly) root.basename (joinNames history) none
  processPath lower arguments.maxLevel root.contents g

/-- `main`, up to the graph it writes. -/
def main (arguments : Arguments) (root : Option Root) (username : Option Str) :
    Except MainError Graph :=
  match root with
  | none => .error .unboundLocalError
  | some root =>
    match treeHistory root.parts username with
    | none => .error .valueError
    | some history => (draw lower arguments root history).mapError .walk

/-! ### The names down to the directory -/

theorem treeHistory_isSome_iff {parts : List Str} {username : Option Str} :
    (treeHistory parts username).isSome = true ↔ ∃ name ∈ parts, username = some name := by
  cases username with
  | none => simp [treeHistory]
  | some name =>
    cases hindex : parts.idxOf? name with
    | none =>
      have hmem : name ∉ parts := List.idxOf?_eq_none_iff.mp hindex
      simpa [treeHistory, hindex] using hmem
    | some i =>
      have hmem : name ∈ parts := by
        by_contra hmem
        rw [List.idxOf?_eq_none_iff.mpr hmem] at hindex
        cases hindex
      simpa [treeHistory, hindex] using hmem

/-- What is left from the first place of a name on begins with it. -/
theorem drop_idxOf? {parts : List Str} {name : Str} {i : ℕ} (h : parts.idxOf? name = some i) :
    ∃ rest, parts.drop i = name :: rest := by
  induction parts generalizing i with
  | nil => simp at h
  | cons part parts ih =>
    rw [List.idxOf?_cons] at h
    split at h
    · next heq =>
      cases h
      exact ⟨parts, by rw [List.drop_zero, eq_of_beq heq]⟩
    · obtain ⟨j, hj, rfl⟩ := Option.map_eq_some_iff.mp h
      exact ih hj

/-- The directory always has a name to build on. -/
theorem joinNames_treeHistory_ne_nil {root : Root} {username : Option Str} {history : List Str}
    (h : treeHistory root.parts username = some history) : joinNames history ≠ [] := by
  obtain ⟨name, hname, h⟩ := Option.bind_eq_some_iff.mp h
  obtain ⟨i, hi, h⟩ := Option.bind_eq_some_iff.mp h
  cases h
  by_cases hempty : name = []
  · -- the parts begin with an empty one, and another one follows
    subst hempty
    have hzero : i = 0 := by
      simpa [Root.parts, List.idxOf?_cons] using hi.symm
    subst hzero
    obtain ⟨part, parts, hparts⟩ : ∃ part parts, root.parts = [] :: part :: parts := by
      unfold Root.parts
      split
      · exact ⟨_, _, rfl⟩
      · next hne =>
        obtain ⟨part, parts, hcomponents⟩ := List.exists_cons_of_ne_nil hne
        exact ⟨part, parts, by rw [hcomponents]⟩
    rw [List.drop_zero, hparts, joinNames, Joined.intercalate_cons_eq]
    simp
  · obtain ⟨rest, hrest⟩ := drop_idxOf? hi
    rw [hrest, joinNames, Joined.intercalate_cons_eq]
    simp [hempty]

/-! ### The graph -/

theorem main_of_treeHistory {arguments : Arguments} {root : Root} {username : Option Str}
    {history : List Str} (h : treeHistory root.parts username = some history) :
    main lower arguments (some root) username =
      (draw lower arguments root history).mapError .walk := by
  simp only [main, h]

theorem main_of_no_treeHistory {arguments : Arguments} {root : Root} {username : Option Str}
    (h : treeHistory root.parts username = none) :
    main lower arguments (some root) username = .error .valueError := by
  simp only [main, h]

theorem draw_eq_ok {arguments : Arguments} {root : Root} {history : List Str} {g : Graph}
    (h : draw lower arguments root history = .ok g) :
    ∃ g₀, addFolder (.new history arguments.dirsOnly) root.basename (joinNames history) none =
      .ok g₀ ∧ processPath lower arguments.maxLevel root.contents g₀ = .ok g := by
  simp only [draw, bind, Except.bind] at h
  split at h
  · cases h
  · next g₀ hfolder => exact ⟨g₀, hfolder, h⟩

theorem mapError_eq_ok {x : Except PyError Graph} {g : Graph}
    (h : x.mapError MainError.walk = .ok g) : x = .ok g := by
  cases x with
  | error e => cases h
  | ok g' => cases h; rfl

/-- **The graph**: the node of the directory, and below it what the walk reports. -/
theorem main_eq_ok {arguments : Arguments} {root : Root} {username : Option Str} {g : Graph}
    (h : main lower arguments (some root) username = .ok g) :
    ∃ history g₀, treeHistory root.parts username = some history ∧
      addFolder (.new history arguments.dirsOnly) root.basename (joinNames history) none = .ok g₀ ∧
      g = g₀.extend lower history 0
        (reported arguments.maxLevel 0 arguments.dirsOnly root.contents) := by
  cases hhist : treeHistory root.parts username with
  | none =>
    rw [main_of_no_treeHistory lower hhist] at h
    cases h
  | some history =>
    rw [main_of_treeHistory lower hhist] at h
    obtain ⟨g₀, hfolder, hwalk⟩ := draw_eq_ok lower (mapError_eq_ok h)
    have hg₀ := addFolder_eq_ok hfolder
    have hname : joinNames g₀.treeHistory ≠ [] := by
      rw [hg₀]
      exact joinNames_treeHistory_ne_nil hhist
    refine ⟨history, g₀, rfl, hfolder, ?_⟩
    rw [processPath_eq_extend lower hname hwalk, hg₀]
    rfl

/-! ### When a walk returns -/

/-- The gradient has a colour for a level. -/
def HasColour (level : ℤ) : Prop := (pyIndex gradientHex level).isSome = true

theorem hasColour_iff {level : ℤ} : HasColour level ↔ -10 ≤ level ∧ level < 10 := by
  rw [HasColour, pyIndex_isSome_iff, length_gradientHex]
  rfl

/-- Every directory that is reached below a directory at level `level` has a colour. -/
def Coloured (maxLevel level : ℤ) (dirsOnly : Bool) (contents : Listing Str) : Prop :=
  ∀ path, (path, Kind.dir) ∈ reported maxLevel level dirsOnly contents →
    HasColour (level + path.length)

theorem coloured_of_le {maxLevel level : ℤ} (h : maxLevel ≤ level) (dirsOnly : Bool)
    (contents : Listing Str) : Coloured maxLevel level dirsOnly contents := by
  intro path hpath
  rw [reported_of_le h] at hpath
  cases hpath

section

variable {maxLevel level : ℤ} (h : level < maxLevel) (dirsOnly : Bool)

include h

theorem coloured_file_iff (obj : Str) (rest : Listing Str) :
    Coloured maxLevel level dirsOnly (.file obj rest) ↔ Coloured maxLevel level dirsOnly rest := by
  have hmem : ∀ path, (path, Kind.dir) ∈ reported maxLevel level dirsOnly (.file obj rest) ↔
      (path, Kind.dir) ∈ reported maxLevel level dirsOnly rest := by
    intro path
    rw [reported_file h, List.mem_append]
    split <;> simp
  simp only [Coloured, hmem]

theorem coloured_ignored_iff {obj : Str} (hobj : obj ∈ pathIgnore) (contents rest : Listing Str) :
    Coloured maxLevel level dirsOnly (.dir obj contents rest) ↔
      Coloured maxLevel level dirsOnly rest := by
  have henter : ¬ enters obj = true := fun henter => enters_eq_true_iff.mp henter hobj
  simp only [Coloured, reported_dir h, henter, if_false, List.nil_append, Bool.false_eq_true]

/-- A directory that is not ignored lies one level down, and its contents below it. -/
theorem coloured_dir_iff {obj : Str} (hobj : obj ∉ pathIgnore) (contents rest : Listing Str) :
    Coloured maxLevel level dirsOnly (.dir obj contents rest) ↔
      HasColour (level + 1) ∧ Coloured maxLevel (level + 1) dirsOnly contents ∧
        Coloured maxLevel level dirsOnly rest := by
  simp only [Coloured, reported_dir h, enters_eq_true_iff.mpr hobj, if_true, List.cons_append,
    List.mem_cons, List.mem_append, List.mem_map, Prod.mk.injEq, and_true]
  constructor
  · intro hall
    refine ⟨?_, ?_, ?_⟩
    · simpa using hall [obj] (.inl rfl)
    · intro path hpath
      have hbelow := hall (obj :: path) (.inr (.inl ⟨_, hpath, rfl, rfl⟩))
      rw [List.length_cons] at hbelow
      have hsum : level + 1 + (path.length : ℤ) = level + ((path.length + 1 : ℕ) : ℤ) := by
        push_cast
        ring
      rwa [hsum]
    · intro path hpath
      exact hall path (.inr (.inr hpath))
  · intro hall path hpath
    obtain ⟨hdir, hcontents, hrest⟩ := hall
    rcases hpath with rfl | ⟨⟨p, k⟩, hp, rfl, rfl⟩ | hpath
    · simpa using hdir
    · have hbelow := hcontents p hp
      have hsum : level + (((obj :: p).length : ℕ) : ℤ) = level + 1 + (p.length : ℤ) := by
        rw [List.length_cons]
        push_cast
        ring
      rwa [hsum]
    · exact hrest path hpath

end

/-- A folder is added where the gradient has a colour for the level. -/
theorem exists_addFolder_iff {g : Graph} {foldername nodeName : Str} {parentname : Option Str} :
    (∃ g', addFolder g foldername nodeName parentname = .ok g') ↔ HasColour g.currentLevel := by
  unfold addFolder HasColour
  cases pyIndex gradientHex g.currentLevel with
  | none => simp
  | some fillcolor => simp

theorem exists_atNextLevel_iff {maxLevel : ℤ} {body : Graph → Except PyError Graph} {g : Graph} :
    (∃ g', atNextLevel maxLevel body g = .ok g') ↔
      (g.currentLevel < maxLevel → ∃ g', body g.down = .ok g') := by
  have hdown : g.down.currentLevel = g.currentLevel + 1 := rfl
  constructor
  · intro hex hlevel
    obtain ⟨g', hg'⟩ := hex
    rcases atNextLevel_eq_ok hg' with ⟨hdeep, _⟩ | ⟨_, g₁, hg₁, _⟩
    · omega
    · exact ⟨g₁, hg₁⟩
  · intro hbody
    by_cases hlevel : g.currentLevel < maxLevel
    · obtain ⟨g₁, hg₁⟩ := hbody hlevel
      have hgo : ¬ g.down.currentLevel > maxLevel := by omega
      exact ⟨g₁.up, by simp only [atNextLevel, hgo, if_false, hg₁]; rfl⟩
    · have hstop : g.down.currentLevel > maxLevel := by omega
      exact ⟨g.down.up, by simp only [atNextLevel, hstop, if_true]; rfl⟩

/-- One directory of the loop: what comes before and after the call sees the level and
the setting of `g` again. -/
theorem exists_processObjs_dir_iff {maxLevel : ℤ} {obj : Str} {contents rest : Listing Str}
    {g : Graph} {R : Prop} (hobj : obj ∉ pathIgnore)
    (hinside : ∀ g₁ : Graph, (∃ g₂, processPath lower maxLevel contents g₁ = .ok g₂) ↔
      Coloured maxLevel g₁.currentLevel g₁.dirsOnly contents)
    (hafter : ∀ g₂ : Graph, g₂.currentLevel = g.currentLevel → g₂.dirsOnly = g.dirsOnly →
      ((∃ g', processObjs lower maxLevel rest g₂ = .ok g') ↔ R)) :
    (∃ g', processObjs lower maxLevel (.dir obj contents rest) g = .ok g') ↔
      HasColour g.currentLevel ∧ Coloured maxLevel g.currentLevel g.dirsOnly contents ∧ R := by
  have hfields : ∀ {g₁ : Graph}, addFolder (g.push obj) obj (joinNames g.treeHistory ++ '_' :: obj)
      (joinNames g.treeHistory) = .ok g₁ →
      g₁.currentLevel = g.currentLevel ∧ g₁.dirsOnly = g.dirsOnly := by
    intro g₁ hfolder
    rw [addFolder_eq_ok hfolder]
    exact ⟨rfl, rfl⟩
  have hrestored : ∀ {g₁ g₂ : Graph}, g₁.currentLevel = g.currentLevel → g₁.dirsOnly = g.dirsOnly →
      processPath lower maxLevel contents g₁ = .ok g₂ →
      ((∃ g', processObjs lower maxLevel rest g₂.pop = .ok g') ↔ R) := by
    intro g₁ g₂ hlev hdirs hnext
    obtain ⟨hlev', _, hdirs'⟩ := processPath_restores lower hnext
    exact hafter g₂.pop (hlev'.trans hlev) (hdirs'.trans hdirs)
  constructor
  · intro hex
    obtain ⟨g', h⟩ := hex
    obtain ⟨g₁, g₂, hfolder, hnext, hrest⟩ := processObjs_dir_eq_ok lower hobj h
    obtain ⟨hlev, hdirs⟩ := hfields hfolder
    refine ⟨(exists_addFolder_iff (g := g.push obj)).mp ⟨g₁, hfolder⟩, ?_, ?_⟩
    · rw [← hlev, ← hdirs]
      exact (hinside g₁).mp ⟨g₂, hnext⟩
    · exact (hrestored hlev hdirs hnext).mp ⟨g', hrest⟩
  · intro hall
    obtain ⟨hcolour, hcontents, hrest⟩ := hall
    obtain ⟨g₁, hfolder⟩ := (exists_addFolder_iff (g := g.push obj)).mpr hcolour
    obtain ⟨hlev, hdirs⟩ := hfields hfolder
    rw [← hlev, ← hdirs] at hcontents
    obtain ⟨g₂, hnext⟩ := (hinside g₁).mpr hcontents
    obtain ⟨g', hrest'⟩ := (hrestored hlev hdirs hnext).mpr hrest
    refine ⟨g', ?_⟩
    rw [processPath] at hnext
    simp only [processObjs, hobj, if_false, hfolder, hnext, hrest', bind, Except.bind]

/-- A call returns exactly if the loop it makes does. -/
theorem exists_processPath_iff_of_loop {maxLevel : ℤ} {contents : Listing Str}
    (hbody : ∀ {g : Graph}, g.currentLevel ≤ maxLevel →
      ((∃ g', processObjs lower maxLevel contents g = .ok g') ↔
        Coloured maxLevel (g.currentLevel - 1) g.dirsOnly contents)) (g : Graph) :
    (∃ g', processPath lower maxLevel contents g = .ok g') ↔
      Coloured maxLevel g.currentLevel g.dirsOnly contents := by
  rw [processPath, exists_atNextLevel_iff]
  by_cases hlevel : g.currentLevel < maxLevel
  · have hback : g.down.currentLevel - 1 = g.currentLevel := add_sub_cancel_right _ _
    have hloop := hbody (g := g.down) hlevel
    rw [hback] at hloop
    exact (imp_iff_right hlevel).trans hloop
  · refine ⟨fun _ => coloured_of_le (by omega) _ _, fun _ hlt => absurd hlt hlevel⟩

/-- **The loop returns exactly if every directory it reaches has a colour.** -/
theorem exists_processObjs_iff {maxLevel : ℤ} (contents : Listing Str) {g : Graph}
    (hlevel : g.currentLevel ≤ maxLevel) :
    (∃ g', processObjs lower maxLevel contents g = .ok g') ↔
      Coloured maxLevel (g.currentLevel - 1) g.dirsOnly contents := by
  induction contents generalizing g with
  | nil =>
    refine ⟨?_, fun _ => ⟨g, rfl⟩⟩
    intro _ path hpath
    cases hpath
  | file obj rest ih =>
    rw [coloured_file_iff (by omega)]
    simp only [processObjs]
    split
    · exact ih hlevel
    · split
      · exact ih hlevel
      · -- a file changes neither the level nor the setting
        exact ih (g := addFile lower g obj _ _) hlevel
  | dir obj contents rest ihc ih =>
    by_cases hobj : obj ∈ pathIgnore
    · rw [coloured_ignored_iff (by omega) _ hobj]
      simp only [processObjs, hobj, if_true]
      exact ih hlevel
    · rw [coloured_dir_iff (by omega) _ hobj, sub_add_cancel]
      refine exists_processObjs_dir_iff lower hobj (exists_processPath_iff_of_loop lower ihc) ?_
      intro g₂ hlev hdirs
      rw [← hlev, ← hdirs]
      exact ih (hlev ▸ hlevel)

theorem exists_processPath_iff {maxLevel : ℤ} (contents : Listing Str) (g : Graph) :
    (∃ g', processPath lower maxLevel contents g = .ok g') ↔
      Coloured maxLevel g.currentLevel g.dirsOnly contents :=
  exists_processPath_iff_of_loop lower (exists_processObjs_iff lower contents) g

/-! ### The colours of the levels -/

/-- The script draws a directory in which, within the levels it walks, another one lies
ten levels down or more, with no ignored name on the way. -/
def TooDeep (arguments : Arguments) (root : Option Root) (username : Option Str) : Prop :=
  ∃ r, root = some r ∧ (∃ name ∈ r.parts, username = some name) ∧
    ∃ path, r.contents.Has path .dir ∧ 10 ≤ path.length ∧
      (path.length : ℤ) ≤ arguments.maxLevel ∧ ∀ name ∈ path, name ∉ pathIgnore

theorem dir_mem_reported_iff {maxLevel : ℤ} {dirsOnly : Bool} {contents : Listing Str}
    {path : List Str} :
    (path, Kind.dir) ∈ reported maxLevel 0 dirsOnly contents ↔
      contents.Has path .dir ∧ (path.length : ℤ) ≤ maxLevel ∧ ∀ name ∈ path, name ∉ pathIgnore := by
  rw [mem_reported_iff, sub_zero]
  simp only [reduceCtorEq, false_imp_iff, and_true]

/-- The node of the directory itself is always added. -/
theorem exists_draw_iff (arguments : Arguments) (root : Root) (history : List Str) :
    (∃ g, draw lower arguments root history = .ok g) ↔
      Coloured arguments.maxLevel 0 arguments.dirsOnly root.contents := by
  obtain ⟨g₀, hg₀⟩ := (@exists_addFolder_iff (.new history arguments.dirsOnly) root.basename
    (joinNames history) none).mpr (hasColour_iff.mpr (show -10 ≤ (0 : ℤ) ∧ (0 : ℤ) < 10 by decide))
  have hlevel : g₀.currentLevel = 0 := by
    rw [addFolder_eq_ok hg₀]
    rfl
  have hdirs : g₀.dirsOnly = arguments.dirsOnly := by
    rw [addFolder_eq_ok hg₀]
    rfl
  have hwalk := @exists_processPath_iff lower arguments.maxLevel root.contents g₀
  rw [hlevel, hdirs] at hwalk
  rw [← hwalk, draw, hg₀]
  rfl

theorem coloured_zero_iff {maxLevel : ℤ} {dirsOnly : Bool} {contents : Listing Str} :
    Coloured maxLevel 0 dirsOnly contents ↔
      ¬ ∃ path, contents.Has path .dir ∧ 10 ≤ path.length ∧ (path.length : ℤ) ≤ maxLevel ∧
        ∀ name ∈ path, name ∉ pathIgnore := by
  constructor
  · intro hall hdeep
    obtain ⟨path, hhas, hten, hlen, hnames⟩ := hdeep
    have hcolour := hasColour_iff.mp (hall path (dir_mem_reported_iff.mpr ⟨hhas, hlen, hnames⟩))
    omega
  · intro hdeep path hpath
    obtain ⟨hhas, hlen, hnames⟩ := dir_mem_reported_iff.mp hpath
    have hten : ¬ 10 ≤ path.length := fun hten => hdeep ⟨path, hhas, hten, hlen, hnames⟩
    exact hasColour_iff.mpr ⟨by omega, by omega⟩

/-- Drawing can fail in one way only. -/
theorem mapError_ne_iff {x : Except PyError Graph} :
    x.mapError MainError.walk ≠ .error (.walk .indexError) ↔ ∃ g, x = .ok g := by
  cases x with
  | ok g => simp [Except.mapError]
  | error e => cases e; simp [Except.mapError]

/-- **The colour lookup.**  The program fails on it exactly if it is started where the
tree is too deep. -/
theorem main_colours_iff (arguments : Arguments) (root : Option Root) (username : Option Str) :
    main lower arguments root username ≠ .error (.walk .indexError) ↔
      ¬ TooDeep arguments root username := by
  cases root with
  | none => simp [main, TooDeep]
  | some root =>
    cases hhist : treeHistory root.parts username with
    | none =>
      have hhome : ¬ ∃ name ∈ root.parts, username = some name := by
        rw [← treeHistory_isSome_iff, hhist]
        decide
      have hshallow : ¬ TooDeep arguments (some root) username := by
        intro hdeep
        obtain ⟨r, hr, hname, _⟩ := hdeep
        cases hr
        exact hhome hname
      simp [main_of_no_treeHistory lower hhist, hshallow]
    | some history =>
      have hhome : ∃ name ∈ root.parts, username = some name := by
        rw [← treeHistory_isSome_iff, hhist]
        rfl
      rw [main_of_treeHistory lower hhist, mapError_ne_iff, exists_draw_iff, coloured_zero_iff,
        not_iff_not]
      constructor
      · intro hdeep
        exact ⟨root, rfl, hhome, hdeep⟩
      · intro hdeep
        obtain ⟨r, hr, _, hpath⟩ := hdeep
        cases hr
        exact hpath

/-- A directory with this many others inside each other. -/
def nested : ℕ → Listing Str
  | 0 => .nil
  | n + 1 => .dir "d".toList (nested n) .nil

theorem nested_unique (n : ℕ) : (nested n).Unique := by
  induction n with
  | zero => exact trivial
  | succ n ih => exact ⟨List.not_mem_nil, ih, trivial⟩

/-- Ten directories inside each other, and ten levels allowed. -/
theorem main_indexError_nested :
    main id ⟨some 10, false⟩ (some ⟨["u".toList], "u".toList, nested 10, nested_unique 10⟩)
      (some "u".toList) = .error (.walk .indexError) := by
  rfl

end

end Dotdir
end Dfuser
