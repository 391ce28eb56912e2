import Mathlib.Tactic.Ring
import Dfuser.Lib.Joined
import Dfuser.Lib.Listing
import Dfuser.Dotdir.Styles

/-!
# The walk of dotdir

`process_path` of `scripts/bash/dotdir` walks a directory tree and adds a node for
every entry and an edge from its parent.  It threads two fields through the
recursion: the current level, which bounds the depth and picks the colour of a
directory, and the names down to the current directory, which make up the names of
the nodes.  The class `Graph` has a second copy of the walk, as a method, which
forgets to step back up a level when it is done.

A graph is the sequence of the nodes and edges added to it, as they are handed to the
drawing library.  The listing is that of `os.listdir`, with what `os.path.isdir`
answers for each name.

## Main definitions

* `Graph`, `addFolder`, `addFile` — the graph under construction.
* `processPath` — the function; `Graph.processPath` — the method.

## Main results

* `processPath_restores` — the function leaves both fields as it found them.
* `processPath_extends` — **the nodes and edges it adds.**
* `processPath_agree_iff` — **the method agrees with it only where nothing is walked.**
-/

namespace Dfuser
namespace Dotdir

/-! ### Graphs -/

/-- Indexing past the end of a list. -/
inductive PyError
  | indexError
  deriving DecidableEq, Repr

/-- A node as it is handed to the drawing library. -/
structure DotNode where
  name : Str
  shape : Str
  label : Str
  fillcolor : Str
  style : Str
  deriving DecidableEq, Repr

/-- What is remembered about a file for later rules. -/
structure FileRecord where
  filename : Str
  nodeName : Str
  extension : Str
  deriving DecidableEq, Repr

/-- The graph under construction, with the fields the walk works with. -/
structure Graph where
  dotNodes : List DotNode
  dotEdges : List (Str × Str)
  currentLevel : ℤ
  treeHistory : List Str
  dirsOnly : Bool
  nodes : List FileRecord
  deriving DecidableEq, Repr

namespace Graph

/-- The graph `main` starts from. -/
def new (treeHistory : List Str) (dirsOnly : Bool) : Graph := ⟨[], [], 0, treeHistory, dirsOnly, []⟩

/-- `graph["current_level"] += 1`. -/
def down (g : Graph) : Graph := { g with currentLevel := g.currentLevel + 1 }

/-- `graph["current_level"] -= 1`. -/
def up (g : Graph) : Graph := { g with currentLevel := g.currentLevel - 1 }

/-- `graph["tree_history"].append(obj)`. -/
def push (g : Graph) (obj : Str) : Graph := { g with treeHistory := g.treeHistory ++ [obj] }

/-- `graph["tree_history"].pop()`. -/
def pop (g : Graph) : Graph := { g with treeHistory := g.treeHistory.dropLast }

@[simp] theorem up_down (g : Graph) : g.down.up = g := by simp [up, down]

@[simp] theorem pop_push (g : Graph) (obj : Str) : (g.push obj).pop = g := by simp [pop, push]

end Graph

/-- `"_".join(names)`. -/
def joinNames (names : List Str) : Str := ['_'].intercalate names

/-- The edge from the parent, when its name is not empty. -/
def parentEdge (parentname : Option Str) (nodeName : Str) : List (Str × Str) :=
  match parentname with
  | none => []
  | some p => if p = [] then [] else [(p, nodeName)]

/-- `add_folder`, and the method of that name. -/
def addFolder (g : Graph) (foldername nodeName : Str) (parentname : Option Str) :
    Except PyError Graph :=
  match pyIndex gradientHex g.currentLevel with
  | none => .error .indexError
  | some fillcolor =>
    .ok { g with
      dotNodes := g.dotNodes ++
        [⟨nodeName, "folder".toList, foldername, fillcolor, "filled".toList⟩]
      dotEdges := g.dotEdges ++ parentEdge parentname nodeName }

section

variable (lower : Str → Str)

/-- The body `add_file` and the method of that name share: `shape` picks the shape from
the name and the extension. -/
def addShapedFile (shape : Str → Str → Str) (g : Graph) (filename nodeName : Str)
    (parentname : Option Str) : Graph :=
  let fileExtension := lower (splitext filename)
  { g with
    dotNodes := g.dotNodes ++
      [⟨nodeName, shape filename fileExtension, filename,
        (extColorMap.lookup fileExtension).getD "#cccccc".toList, "filled".toList⟩]
    nodes := g.nodes ++ [⟨filename, nodeName, fileExtension⟩]
    dotEdges := g.dotEdges ++ parentEdge parentname nodeName }

/-- The shape by the extension alone. -/
def shapeOfExtension (_filename fileExtension : Str) : Str :=
  (extShapeMap.lookup fileExtension).getD "note".toList

/-- The shape by the name, or else by the extension. -/
def shapeOfFile (filename fileExtension : Str) : Str :=
  (filenameShapeMap.lookup filename).getD (shapeOfExtension filename fileExtension)

/-- `add_file`. -/
def addFile : Graph → Str → Str → Option Str → Graph := addShapedFile lower shapeOfFile

/-- The method `add_file`. -/
def Graph.addFile : Graph → Str → Str → Option Str → Graph := addShapedFile lower shapeOfExtension

/-! ### The walk -/

/-- `PATH_IGNORE`. -/
def pathIgnore : List Str :=
  [".git".toList, "build".toList, ".dep".toList, ".archive".toList, ".backup".toList,
    ".vscode".toList, ".idea".toList]

/-- The file the script used to write its graph to. -/
def tempDot : Str := "temp.dot".toList

/-- `process_path` around its loop `body`: one level down, and back up again. -/
def atNextLevel (maxLevel : ℤ) (body : Graph → Except PyError Graph) (g : Graph) :
    Except PyError Graph := do
  let g := g.down
  if g.currentLevel > maxLevel then
    return g.up
  let g ← body g
  return g.up

/-- The loop of `process_path` over a directory. -/
def processObjs (maxLevel : ℤ) : Listing Str → Graph → Except PyError Graph
  | .nil, g => .ok g
  | .file obj rest, g =>
    let parentname := joinNames g.treeHistory
    let objNodeName := joinNames g.treeHistory ++ '_' :: obj
    if obj ∈ pathIgnore then processObjs maxLevel rest g
    else if g.dirsOnly ∨ obj = tempDot then processObjs maxLevel rest g
    else processObjs maxLevel rest (addFile lower g obj objNodeName parentname)
  | .dir obj contents rest, g =>
    let parentname := joinNames g.treeHistory
    let objNodeName := joinNames g.treeHistory ++ '_' :: obj
    if obj ∈ pathIgnore then processObjs maxLevel rest g
    else do
      let g ← addFolder (g.push obj) obj objNodeName parentname
      -- the recursive call of `process_path`
      let g ← atNextLevel maxLevel (processObjs maxLevel contents) g
      processObjs maxLevel rest g.pop

/-- `process_path`, on the directory with these contents. -/
def processPath (maxLevel : ℤ) (contents : Listing Str) : Graph → Except PyError Graph :=
  atNextLevel maxLevel (processObjs lower maxLevel contents)

/-- The method `process_path` around its loop `body`: one level down.  Only the early
return steps back up. -/
def Graph.atNextLevel (maxLevel : ℤ) (body : Graph → Except PyError Graph) (g : Graph) :
    Except PyError Graph := do
  let g := g.down
  if g.currentLevel > maxLevel then
    return g.up
  body g

/-- The loop of the method `process_path`. -/
def Graph.processObjs (maxLevel : ℤ) : Listing Str → Graph → Except PyError Graph
  | .nil, g => .ok g
  | .file obj rest, g =>
    let parentname := joinNames g.treeHistory
    let objNodeName := joinNames g.treeHistory ++ '_' :: obj
    if obj ∈ pathIgnore then Graph.processObjs maxLevel rest g
    else if g.dirsOnly ∨ obj = tempDot then Graph.processObjs maxLevel rest g
    else Graph.processObjs maxLevel rest (g.addFile lower obj objNodeName parentname)
  | .dir obj contents rest, g =>
    let parentname := joinNames g.treeHistory
    let objNodeName := joinNames g.treeHistory ++ '_' :: obj
    if obj ∈ pathIgnore then Graph.processObjs maxLevel rest g
    else do
      let g ← addFolder (g.push obj) obj objNodeName parentname
      let g ← g.atNextLevel maxLevel (Graph.processObjs maxLevel contents)
      Graph.processObjs maxLevel rest g.pop

/-- The method `process_path`. -/
def Graph.processPath (maxLevel : ℤ) (contents : Listing Str) (g : Graph) : Except PyError Graph :=
  g.atNextLevel maxLevel (Graph.processObjs lower maxLevel contents)

/-! ### One step of each -/

theorem addFolder_eq_ok {g g' : Graph} {foldername nodeName : Str} {parentname : Option Str}
    (h : addFolder g foldername nodeName parentname = .ok g') :
    g' = { g with
      dotNodes := g.dotNodes ++ [⟨nodeName, "folder".toList, foldername,
        (pyIndex gradientHex g.currentLevel).getD [], "filled".toList⟩]
      dotEdges := g.dotEdges ++ parentEdge parentname nodeName } := by
  unfold addFolder at h
  split at h
  · cases h
  · next hcolor => cases h; rw [hcolor]; rfl

theorem atNextLevel_eq_ok {maxLevel : ℤ} {body : Graph → Except PyError Graph} {g g' : Graph}
    (h : atNextLevel maxLevel body g = .ok g') :
    (maxLevel ≤ g.currentLevel ∧ g' = g) ∨
      (g.currentLevel < maxLevel ∧ ∃ g₁, body g.down = .ok g₁ ∧ g' = g₁.up) := by
  simp only [atNextLevel, Graph.up_down, gt_iff_lt] at h
  have hdown : g.down.currentLevel = g.currentLevel + 1 := rfl
  split at h
  · next hlevel =>
    cases h
    exact .inl ⟨by omega, rfl⟩
  · next hlevel =>
    refine .inr ⟨by omega, ?_⟩
    cases hbody : body g.down with
    | error e => rw [hbody] at h; cases h
    | ok g₁ => rw [hbody] at h; cases h; exact ⟨g₁, rfl, rfl⟩

/-- A directory that is not ignored. -/
theorem processObjs_dir_eq_ok {maxLevel : ℤ} {obj : Str} {contents rest : Listing Str}
    {g g' : Graph} (hobj : obj ∉ pathIgnore)
    (h : processObjs lower maxLevel (.dir obj contents rest) g = .ok g') :
    ∃ g₁ g₂,
      addFolder (g.push obj) obj (joinNames g.treeHistory ++ '_' :: obj)
        (joinNames g.treeHistory) = .ok g₁ ∧
      atNextLevel maxLevel (processObjs lower maxLevel contents) g₁ = .ok g₂ ∧
      processObjs lower maxLevel rest g₂.pop = .ok g' := by
  simp only [processObjs, hobj, if_false, bind, Except.bind] at h
  split at h
  · cases h
  · next g₁ hfolder =>
    split at h
    · cases h
    · next g₂ hnext => exact ⟨g₁, g₂, hfolder, hnext, h⟩

/-! ### The function restores its fields -/

/-- Both fields are as they were, and so is the setting the walk reads. -/
def SameFields (g g' : Graph) : Prop :=
  g'.currentLevel = g.currentLevel ∧ g'.treeHistory = g.treeHistory ∧ g'.dirsOnly = g.dirsOnly

theorem atNextLevel_restores {maxLevel : ℤ} {body : Graph → Except PyError Graph}
    (hbody : ∀ {g g' : Graph}, body g = .ok g' → SameFields g g') {g g' : Graph}
    (h : atNextLevel maxLevel body g = .ok g') : SameFields g g' := by
  rcases atNextLevel_eq_ok h with ⟨-, rfl⟩ | ⟨-, g₁, hg₁, rfl⟩
  · exact ⟨rfl, rfl, rfl⟩
  · obtain ⟨hlevel, hhist, hdirs⟩ := hbody hg₁
    exact ⟨by simp [Graph.up, Graph.down, hlevel], hhist, hdirs⟩

theorem processObjs_restores {maxLevel : ℤ} (contents : Listing Str) {g g' : Graph}
    (h : processObjs lower maxLevel contents g = .ok g') : SameFields g g' := by
  induction contents generalizing g g' with
  | nil => cases h; exact ⟨rfl, rfl, rfl⟩
  | file obj rest ih =>
    simp only [processObjs] at h
    split at h
    · exact ih h
    · split at h
      · exact ih h
      · obtain ⟨hlevel, hhist, hdirs⟩ := ih h
        exact ⟨hlevel, hhist, hdirs⟩
  | dir obj contents rest ihc ih =>
    by_cases hobj : obj ∈ pathIgnore
    · simp only [processObjs, hobj, if_true] at h
      exact ih h
    · obtain ⟨g₁, g₂, hfolder, hnext, hrest⟩ := processObjs_dir_eq_ok lower hobj h
      have hg₁ := addFolder_eq_ok hfolder
      obtain ⟨hlevel, hhist, hdirs⟩ := atNextLevel_restores (fun h => ihc h) hnext
      obtain ⟨hlevel', hhist', hdirs'⟩ := ih hrest
      refine ⟨?_, ?_, ?_⟩
      · rw [hlevel']; simp [Graph.pop, Graph.push, hlevel, hg₁]
      · rw [hhist']; simp [Graph.pop, Graph.push, hhist, hg₁]
      · rw [hdirs']; simp [Graph.pop, Graph.push, hdirs, hg₁]

/-- The function leaves the level and the names as it found them. -/
theorem processPath_restores {maxLevel : ℤ} {contents : Listing Str} {g g' : Graph}
    (h : processPath lower maxLevel contents g = .ok g') : SameFields g g' :=
  atNextLevel_restores (processObjs_restores lower contents) h

/-! ### What the function adds -/

/-- The node of an entry below the directory with names `history`, whose level is
`level`. -/
def dotNodeOf (history : List Str) (level : ℤ) : List Str × Kind → DotNode
  | (path, .dir) =>
    ⟨joinNames (history ++ path), "folder".toList, path.getLast?.getD [],
      (pyIndex gradientHex (level + path.length)).getD [], "filled".toList⟩
  | (path, .file) =>
    let filename := path.getLast?.getD []
    let fileExtension := lower (splitext filename)
    ⟨joinNames (history ++ path), shapeOfFile filename fileExtension, filename,
      (extColorMap.lookup fileExtension).getD "#cccccc".toList, "filled".toList⟩

/-- The edge of an entry, from the node of its parent. -/
def dotEdgeOf (history : List Str) (e : List Str × Kind) : Str × Str :=
  (joinNames (history ++ e.1.dropLast), joinNames (history ++ e.1))

/-- What is remembered about an entry. -/
def fileRecordOf (history : List Str) : List Str × Kind → Option FileRecord
  | (_, .dir) => none
  | (path, .file) =>
    let filename := path.getLast?.getD []
    some ⟨filename, joinNames (history ++ path), lower (splitext filename)⟩

/-- The graph with nodes and edges for all these entries. -/
def Graph.extend (history : List Str) (level : ℤ) (g : Graph) (entries : List (List Str × Kind)) :
    Graph :=
  { g with
    dotNodes := g.dotNodes ++ entries.map (dotNodeOf lower history level)
    dotEdges := g.dotEdges ++ entries.map (dotEdgeOf history)
    nodes := g.nodes ++ entries.filterMap (fileRecordOf lower history) }

theorem Graph.extend_nil (history : List Str) (level : ℤ) (g : Graph) :
    g.extend lower history level [] = g := by
  simp [Graph.extend]

theorem Graph.extend_append (history : List Str) (level : ℤ) (g : Graph)
    (e₁ e₂ : List (List Str × Kind)) :
    (g.extend lower history level e₁).extend lower history level e₂ =
      g.extend lower history level (e₁ ++ e₂) := by
  simp [Graph.extend]

theorem Graph.pop_up_extend (history : List Str) (level : ℤ) (g : Graph) (obj : Str)
    (entries : List (List Str × Kind)) :
    ((g.push obj).down.extend lower history level entries).up.pop =
      g.extend lower history level entries := by
  simp [Graph.extend, Graph.push, Graph.pop, Graph.up, Graph.down]

/-- Entries seen from a subdirectory are entries seen from above. -/
theorem Graph.extend_inside (history : List Str) (level : ℤ) (name : Str) (g : Graph)
    {entries : List (List Str × Kind)} (h : ∀ e ∈ entries, e.1 ≠ []) :
    g.extend lower (history ++ [name]) (level + 1) entries =
      g.extend lower history level (entries.map fun e => (name :: e.1, e.2)) := by
  have hnode : ∀ e ∈ entries, dotNodeOf lower (history ++ [name]) (level + 1) e =
      dotNodeOf lower history level (name :: e.1, e.2) := by
    rintro ⟨path, k⟩ he
    have hlast := List.getLast?_cons_of_ne_nil (x := name) (h _ he)
    cases k with
    | file => simp [dotNodeOf, hlast]
    | dir =>
      simp only [dotNodeOf, hlast, List.append_assoc, List.singleton_append, List.length_cons]
      push_cast
      rw [add_assoc, add_comm 1 (path.length : ℤ)]
  have hedge : ∀ e ∈ entries, dotEdgeOf (history ++ [name]) e =
      dotEdgeOf history (name :: e.1, e.2) := by
    rintro ⟨path, k⟩ he
    simp [dotEdgeOf, List.dropLast_cons_of_ne_nil (h _ he)]
  have hrecord : ∀ e ∈ entries, fileRecordOf lower (history ++ [name]) e =
      fileRecordOf lower history (name :: e.1, e.2) := by
    rintro ⟨path, k⟩ he
    have hlast := List.getLast?_cons_of_ne_nil (x := name) (h _ he)
    cases k with
    | file => simp [fileRecordOf, hlast]
    | dir => rfl
  simp only [Graph.extend, List.map_map, List.filterMap_map, List.map_congr_left hnode,
    List.map_congr_left hedge, List.filterMap_congr hrecord]
  rfl

theorem joinNames_concat {history : List Str} (h : history ≠ []) (name : Str) :
    joinNames (history ++ [name]) = joinNames history ++ '_' :: name := by
  unfold joinNames
  rw [Joined.intercalate_append '_' h]
  simp

/-- The names the walk does not pass over. -/
def enters (obj : Str) : Bool := obj ∉ pathIgnore

/-- The files the walk keeps. -/
def keeps (dirsOnly : Bool) (obj : Str) : Bool := !dirsOnly && obj ≠ tempDot

theorem enters_eq_true_iff {obj : Str} : enters obj = true ↔ obj ∉ pathIgnore := by
  rw [enters, decide_eq_true_eq]

theorem keeps_eq_true_iff {dirsOnly : Bool} {obj : Str} :
    keeps dirsOnly obj = true ↔ ¬ (dirsOnly = true ∨ obj = tempDot) := by
  rw [keeps, Bool.and_eq_true, Bool.not_eq_true', decide_eq_true_eq, not_or, Bool.not_eq_true]

/-- The entries the walk reports below a directory at level `level`. -/
def reported (maxLevel level : ℤ) (dirsOnly : Bool) (contents : Listing Str) :
    List (List Str × Kind) :=
  contents.select enters (keeps dirsOnly) (maxLevel - level).toNat

theorem reported_file {maxLevel level : ℤ} (h : level < maxLevel) (dirsOnly : Bool) (obj : Str)
    (rest : Listing Str) :
    reported maxLevel level dirsOnly (.file obj rest) =
      (if enters obj = true ∧ keeps dirsOnly obj = true then [([obj], .file)] else []) ++
        reported maxLevel level dirsOnly rest := by
  have hdepth : 0 < (maxLevel - level).toNat := by omega
  simp only [reported, Listing.select, hdepth, true_and]

theorem reported_dir {maxLevel level : ℤ} (h : level < maxLevel) (dirsOnly : Bool) (obj : Str)
    (contents rest : Listing Str) :
    reported maxLevel level dirsOnly (.dir obj contents rest) =
      (if enters obj = true then
        ([obj], .dir) :: (reported maxLevel (level + 1) dirsOnly contents).map fun e =>
          (obj :: e.1, e.2) else []) ++ reported maxLevel level dirsOnly rest := by
  have hdepth : 0 < (maxLevel - level).toNat := by omega
  have hbelow : (maxLevel - level).toNat - 1 = (maxLevel - (level + 1)).toNat := by omega
  simp only [reported, Listing.select, hdepth, true_and, hbelow]

theorem reported_of_le {maxLevel level : ℤ} (h : maxLevel ≤ level) (dirsOnly : Bool)
    (contents : Listing Str) : reported maxLevel level dirsOnly contents = [] := by
  have hdepth : (maxLevel - level).toNat = 0 := by omega
  rw [reported, hdepth, Listing.select_zero]

theorem ne_nil_of_mem_reported {maxLevel level : ℤ} {dirsOnly : Bool} {contents : Listing Str}
    {e : List Str × Kind} (h : e ∈ reported maxLevel level dirsOnly contents) : e.1 ≠ [] :=
  ((Listing.mem_select_iff _ _ _ _ e.1 e.2).mp h).1.ne_nil

/-- Which entries are reported. -/
theorem mem_reported_iff {maxLevel level : ℤ} {dirsOnly : Bool} {contents : Listing Str}
    {path : List Str} {k : Kind} :
    (path, k) ∈ reported maxLevel level dirsOnly contents ↔
      contents.Has path k ∧ (path.length : ℤ) ≤ maxLevel - level ∧
        (∀ name ∈ path, name ∉ pathIgnore) ∧
        (k = .file → dirsOnly = false ∧ path.getLast? ≠ some tempDot) := by
  rw [reported, Listing.mem_select_iff]
  refine and_congr_right fun hhas => and_congr ?_ (and_congr ?_ (imp_congr_right fun _ => ?_))
  · have := List.length_pos_iff.mpr hhas.ne_nil
    omega
  · exact forall₂_congr fun name _ => enters_eq_true_iff
  · obtain ⟨n, hn⟩ := Option.isSome_iff_exists.mp (List.getLast?_isSome.mpr hhas.ne_nil)
    simp only [hn, Option.mem_def, Option.some.injEq, forall_eq', keeps_eq_true_iff, not_or,
      Bool.not_eq_true, ne_eq]

theorem parentEdge_of_ne_nil {parentname : Str} (h : parentname ≠ []) (nodeName : Str) :
    parentEdge (some parentname) nodeName = [(parentname, nodeName)] := by
  simp [parentEdge, h]

theorem addFile_eq_extend {g : Graph} (h : joinNames g.treeHistory ≠ []) (level : ℤ) (obj : Str) :
    addFile lower g obj (joinNames g.treeHistory ++ '_' :: obj) (joinNames g.treeHistory) =
      g.extend lower g.treeHistory level [([obj], .file)] := by
  have hne : g.treeHistory ≠ [] := fun hnil => h (by rw [hnil]; rfl)
  simp [addFile, addShapedFile, Graph.extend, dotNodeOf, dotEdgeOf, fileRecordOf,
    parentEdge_of_ne_nil h, joinNames_concat hne]

theorem addFolder_eq_extend {g g' : Graph} (h : joinNames g.treeHistory ≠ []) {obj : Str}
    (hok : addFolder (g.push obj) obj (joinNames g.treeHistory ++ '_' :: obj)
      (joinNames g.treeHistory) = .ok g') :
    g' = (g.extend lower g.treeHistory (g.currentLevel - 1) [([obj], .dir)]).push obj := by
  have hne : g.treeHistory ≠ [] := fun hnil => h (by rw [hnil]; rfl)
  rw [addFolder_eq_ok hok]
  simp [Graph.push, Graph.extend, dotNodeOf, dotEdgeOf, fileRecordOf, parentEdge_of_ne_nil h,
    joinNames_concat hne]

/-- A directory and all that is reported in it, when the loop over it is known to add
what is reported. -/
theorem atNextLevel_extends {maxLevel : ℤ} {contents : Listing Str} {g g₁ g₂ : Graph} {obj : Str}
    (hname : joinNames g.treeHistory ≠ [])
    (hfolder : addFolder (g.push obj) obj (joinNames g.treeHistory ++ '_' :: obj)
      (joinNames g.treeHistory) = .ok g₁)
    (hbody : ∀ {g g' : Graph}, joinNames g.treeHistory ≠ [] → g.currentLevel ≤ maxLevel →
      processObjs lower maxLevel contents g = .ok g' →
      g' = g.extend lower g.treeHistory (g.currentLevel - 1)
        (reported maxLevel (g.currentLevel - 1) g.dirsOnly contents))
    (hnext : atNextLevel maxLevel (processObjs lower maxLevel contents) g₁ = .ok g₂) :
    g₂.pop = g.extend lower g.treeHistory (g.currentLevel - 1)
      (([obj], .dir) :: (reported maxLevel (g.currentLevel - 1 + 1) g.dirsOnly contents).map
        fun e => (obj :: e.1, e.2)) := by
  have hne : g.treeHistory ≠ [] := fun hnil => hname (by rw [hnil]; rfl)
  rw [← List.singleton_append, ← Graph.extend_append]
  obtain ⟨e, he⟩ : ∃ e, e = g.extend lower g.treeHistory (g.currentLevel - 1) [([obj], .dir)] :=
    ⟨_, rfl⟩
  have hg₁ : g₁ = e.push obj := he ▸ addFolder_eq_extend lower hname hfolder
  have hhist : e.treeHistory = g.treeHistory := by rw [he]; rfl
  have hlev : e.currentLevel = g.currentLevel := by rw [he]; rfl
  have hdirs : e.dirsOnly = g.dirsOnly := by rw [he]; rfl
  rw [← he, ← hhist, ← hlev, ← hdirs]
  subst hg₁
  rcases atNextLevel_eq_ok hnext with ⟨hdeep, rfl⟩ | ⟨hlevel, g₃, hg₃, rfl⟩
  · have hdeep' : maxLevel ≤ e.currentLevel - 1 + 1 := by
      rw [sub_add_cancel]
      exact hdeep
    rw [reported_of_le hdeep', List.map_nil, Graph.extend_nil, Graph.pop_push]
  · have hjoin : joinNames (e.treeHistory ++ [obj]) ≠ [] := by
      rw [joinNames_concat (hhist ▸ hne)]
      simp
    have hinside := hbody hjoin (show e.currentLevel + 1 ≤ maxLevel from hlevel) hg₃
    have hlevel' : (e.push obj).down.currentLevel - 1 = e.currentLevel - 1 + 1 := by
      simp [Graph.down, Graph.push]
    have hhist' : (e.push obj).down.treeHistory = e.treeHistory ++ [obj] := rfl
    have hdirs' : (e.push obj).down.dirsOnly = e.dirsOnly := rfl
    rw [hinside, hlevel', hhist', hdirs',
      Graph.extend_inside lower _ _ _ _ fun _ he => ne_nil_of_mem_reported he,
      Graph.pop_up_extend]

/-- **The loop.**  Below a directory with a non-empty name the walk adds exactly the
nodes and edges of the entries it reports. -/
theorem processObjs_extends {maxLevel : ℤ} (contents : Listing Str) {g g' : Graph}
    (hname : joinNames g.treeHistory ≠ []) (hlevel : g.currentLevel ≤ maxLevel)
    (h : processObjs lower maxLevel contents g = .ok g') :
    g' = g.extend lower g.treeHistory (g.currentLevel - 1)
      (reported maxLevel (g.currentLevel - 1) g.dirsOnly contents) := by
  have hbelow : g.currentLevel - 1 < maxLevel := by omega
  induction contents generalizing g g' with
  | nil => cases h; exact (Graph.extend_nil lower _ _ g).symm
  | file obj rest ih =>
    simp only [processObjs] at h
    rw [reported_file hbelow]
    split at h
    · next hobj =>
      rw [ih hname hlevel h hbelow, if_neg fun hkeep => enters_eq_true_iff.mp hkeep.1 hobj]
      rfl
    · next hobj =>
      split at h
      · next hskip =>
        rw [ih hname hlevel h hbelow, if_neg fun hkeep => keeps_eq_true_iff.mp hkeep.2 hskip]
        rfl
      · next hkeep =>
        rw [addFile_eq_extend lower hname (g.currentLevel - 1) obj] at h
        rw [if_pos ⟨enters_eq_true_iff.mpr hobj, keeps_eq_true_iff.mpr hkeep⟩,
          ← Graph.extend_append]
        exact ih hname hlevel h hbelow
  | dir obj contents rest ihc ih =>
    rw [reported_dir hbelow]
    by_cases hobj : obj ∈ pathIgnore
    · simp only [processObjs, hobj, if_true] at h
      rw [ih hname hlevel h hbelow, if_neg fun henter => enters_eq_true_iff.mp henter hobj]
      rfl
    · obtain ⟨g₁, g₂, hfolder, hnext, hrest⟩ := processObjs_dir_eq_ok lower hobj h
      have hback := atNextLevel_extends lower hname hfolder
        (fun hname' hlevel' hok => ihc hname' hlevel' hok (by omega)) hnext
      rw [hback] at hrest
      rw [if_pos (enters_eq_true_iff.mpr hobj), ← Graph.extend_append]
      exact ih hname hlevel hrest hbelow

theorem processPath_eq_extend {maxLevel : ℤ} {contents : Listing Str} {g g' : Graph}
    (hname : joinNames g.treeHistory ≠ [])
    (h : processPath lower maxLevel contents g = .ok g') :
    g' = g.extend lower g.treeHistory g.currentLevel
      (reported maxLevel g.currentLevel g.dirsOnly contents) := by
  rcases atNextLevel_eq_ok h with ⟨hdeep, rfl⟩ | ⟨hlevel, g₁, hg₁, rfl⟩
  · rw [reported_of_le hdeep, Graph.extend_nil]
  · have hbody := processObjs_extends lower contents (g := g.down) hname hlevel hg₁
    have hback : g.down.currentLevel - 1 = g.currentLevel := add_sub_cancel_right _ _
    rw [hbody, hback]
    simp [Graph.extend, Graph.up, Graph.down]

/-- **What the function adds.**  Started below a directory whose name is not empty, a
call that returns has restored the level and the names, and has added one node for
every entry that lies at most as many levels down as are left, has no ignored name on
its path and is not a file that is left out; and for each of them one edge, from the
node of its parent. -/
theorem processPath_extends {maxLevel : ℤ} {contents : Listing Str} {g g' : Graph}
    (hunique : contents.Unique) (hname : joinNames g.treeHistory ≠ [])
    (h : processPath lower maxLevel contents g = .ok g') :
    g'.currentLevel = g.currentLevel ∧ g'.treeHistory = g.treeHistory ∧
    ∃ entries : List (List Str × Kind),
      (entries.map Prod.fst).Nodup ∧
      (∀ path k, (path, k) ∈ entries ↔
        contents.Has path k ∧ (path.length : ℤ) ≤ maxLevel - g.currentLevel ∧
        (∀ name ∈ path, name ∉ pathIgnore) ∧
        (k = .file → g.dirsOnly = false ∧ path.getLast? ≠ some tempDot)) ∧
      g'.dotNodes = g.dotNodes ++ entries.map (dotNodeOf lower g.treeHistory g.currentLevel) ∧
      g'.dotEdges = g.dotEdges ++ entries.map fun e =>
        (joinNames (g.treeHistory ++ e.1.dropLast), joinNames (g.treeHistory ++ e.1)) := by
  obtain ⟨hlevel, hhist, -⟩ := processPath_restores lower h
  refine ⟨hlevel, hhist, reported maxLevel g.currentLevel g.dirsOnly contents,
    Listing.nodup_select _ _ hunique _, ?_, ?_, ?_⟩
  · exact fun path k => mem_reported_iff
  · rw [processPath_eq_extend lower hname h]
    rfl
  · rw [processPath_eq_extend lower hname h]
    rfl

/-- A file in a directory, walked to its full depth. -/
theorem processPath_extends_home :
    ∃ g', processPath id 2 (.dir "src".toList (.file "a.c".toList .nil) .nil)
        (.new ["home".toList] false) = .ok g' ∧
      g'.currentLevel = 0 ∧ g'.treeHistory = ["home".toList] ∧
      ∃ entries : List (List Str × Kind),
        (entries.map Prod.fst).Nodup ∧
        (["src".toList, "a.c".toList], .file) ∈ entries ∧
        g'.dotEdges = entries.map fun e =>
          (joinNames ("home".toList :: e.1.dropLast), joinNames ("home".toList :: e.1)) := by
  obtain ⟨g', hg'⟩ : ∃ g', processPath id 2 (.dir "src".toList (.file "a.c".toList .nil) .nil)
      (.new ["home".toList] false) = .ok g' := ⟨_, rfl⟩
  refine ⟨g', hg', ?_⟩
  obtain ⟨hlevel, hhist, entries, hnodup, hmem, -, hedges⟩ :=
    processPath_extends id (by decide) (by decide) hg'
  refine ⟨hlevel, hhist, entries, hnodup, (hmem _ _).mpr ⟨?_, ?_, ?_, ?_⟩, hedges⟩
  · exact .inside _ _ (.file _ _)
  · decide
  · decide
  · decide

/-! ### The method -/

theorem Graph.atNextLevel_eq_ok {maxLevel : ℤ} {body : Graph → Except PyError Graph} {g g' : Graph}
    (h : g.atNextLevel maxLevel body = .ok g') :
    (maxLevel ≤ g.currentLevel ∧ g' = g) ∨ (g.currentLevel < maxLevel ∧ body g.down = .ok g') := by
  simp only [Graph.atNextLevel, Graph.up_down, gt_iff_lt] at h
  have hdown : g.down.currentLevel = g.currentLevel + 1 := rfl
  split at h
  · next hlevel =>
    cases h
    exact .inl ⟨by omega, rfl⟩
  · next hlevel => exact .inr ⟨by omega, h⟩

theorem Graph.processObjs_dir_eq_ok {maxLevel : ℤ} {obj : Str} {contents rest : Listing Str}
    {g g' : Graph} (hobj : obj ∉ pathIgnore)
    (h : g.processObjs lower maxLevel (.dir obj contents rest) = .ok g') :
    ∃ g₁ g₂ : Graph,
      addFolder (g.push obj) obj (joinNames g.treeHistory ++ '_' :: obj)
        (joinNames g.treeHistory) = .ok g₁ ∧
      g₁.atNextLevel maxLevel (Graph.processObjs lower maxLevel contents) = .ok g₂ ∧
      g₂.pop.processObjs lower maxLevel rest = .ok g' := by
  simp only [Graph.processObjs, hobj, if_false, bind, Except.bind] at h
  split at h
  · cases h
  · next g₁ hfolder =>
    split at h
    · cases h
    · next g₂ hnext => exact ⟨g₁, g₂, hfolder, hnext, h⟩

/-- The method never steps back up below the level of a call. -/
theorem Graph.currentLevel_le_of_processObjs {maxLevel : ℤ} (contents : Listing Str) {g g' : Graph}
    (h : g.processObjs lower maxLevel contents = .ok g') : g.currentLevel ≤ g'.currentLevel := by
  induction contents generalizing g g' with
  | nil => cases h; exact le_rfl
  | file obj rest ih =>
    simp only [Graph.processObjs] at h
    split at h
    · exact ih h
    · split at h
      · exact ih h
      · exact ih (g := g.addFile lower obj _ _) h
  | dir obj contents rest ihc ih =>
    by_cases hobj : obj ∈ pathIgnore
    · simp only [Graph.processObjs, hobj, if_true] at h
      exact ih h
    · obtain ⟨g₁, g₂, hfolder, hnext, hrest⟩ := Graph.processObjs_dir_eq_ok lower hobj h
      have hg₁ : g₁.currentLevel = g.currentLevel := by
        rw [addFolder_eq_ok hfolder]
        rfl
      have hg₂ : g₁.currentLevel ≤ g₂.currentLevel := by
        rcases Graph.atNextLevel_eq_ok hnext with ⟨-, rfl⟩ | ⟨-, hbody⟩
        · exact le_rfl
        · have hdown : g₁.down.currentLevel = g₁.currentLevel + 1 := rfl
          have := ihc hbody
          omega
      have hg' : g₂.pop.currentLevel ≤ g'.currentLevel := ih hrest
      have hpop : g₂.pop.currentLevel = g₂.currentLevel := rfl
      omega

/-- Two graphs have nodes of the same names and the same edges, in the same order, and
the same level. -/
def Agree (g₁ g₂ : Graph) : Prop :=
  g₁.dotNodes.map DotNode.name = g₂.dotNodes.map DotNode.name ∧ g₁.dotEdges = g₂.dotEdges ∧
    g₁.currentLevel = g₂.currentLevel

instance (g₁ g₂ : Graph) : Decidable (Agree g₁ g₂) := inferInstanceAs (Decidable (_ ∧ _ ∧ _))

/-- **The method agrees with the function only where nothing is walked.**  From level
`0` the function comes back to it, and the method does not as soon as one level is
allowed. -/
theorem processPath_agree_iff {maxLevel : ℤ} {contents : Listing Str} {g g₁ g₂ : Graph}
    (hlevel : g.currentLevel = 0) (h₁ : processPath lower maxLevel contents g = .ok g₁)
    (h₂ : g.processPath lower maxLevel contents = .ok g₂) : Agree g₁ g₂ ↔ maxLevel ≤ 0 := by
  rcases Graph.atNextLevel_eq_ok h₂ with ⟨hdeep, rfl⟩ | ⟨hwalk, hbody⟩
  · rcases atNextLevel_eq_ok h₁ with ⟨-, rfl⟩ | ⟨hwalk, -⟩
    · exact ⟨fun _ => hlevel ▸ hdeep, fun _ => ⟨rfl, rfl, rfl⟩⟩
    · omega
  · have hrestored : g₁.currentLevel = 0 := (processPath_restores lower h₁).1.trans hlevel
    have hleft : g.down.currentLevel ≤ g₂.currentLevel :=
      Graph.currentLevel_le_of_processObjs lower contents hbody
    have hdown : g.down.currentLevel = g.currentLevel + 1 := rfl
    constructor
    · rintro ⟨-, -, hsame⟩
      omega
    · intro hzero
      omega

end

/-- With no level allowed, both leave the graph alone. -/
theorem processPath_agree_iff_zero :
    ∃ g₁ g₂, processPath id 0 (.file "a".toList .nil) (.new ["h".toList] false) = .ok g₁ ∧
      Graph.processPath id 0 (.file "a".toList .nil) (.new ["h".toList] false) = .ok g₂ ∧
      Agree g₁ g₂ :=
  ⟨_, _, rfl, rfl, (@processPath_agree_iff id 0 (.file "a".toList .nil)
    (.new ["h".toList] false) _ _ rfl rfl rfl).mpr le_rfl⟩

/-- Two directories side by side, two levels allowed: the method misses the file in the
second one. -/
theorem processPath_disagree_siblings :
    ∃ g₁ g₂, processPath id 2 (.dir "a".toList .nil (.dir "b".toList (.file "x".toList .nil) .nil))
        (.new ["h".toList] false) = .ok g₁ ∧
      Graph.processPath id 2 (.dir "a".toList .nil (.dir "b".toList (.file "x".toList .nil) .nil))
        (.new ["h".toList] false) = .ok g₂ ∧
      g₁.dotNodes.length = 3 ∧ g₂.dotNodes.length = 2 ∧ ¬ Agree g₁ g₂ := by
  refine ⟨_, _, rfl, rfl, ?_, ?_, ?_⟩
  · decide
  · decide
  · decide

end Dotdir
end Dfuser
