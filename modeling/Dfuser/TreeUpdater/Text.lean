import Dfuser.Lib.Dict
import Dfuser.Lib.JsonDump
import Dfuser.TreeUpdater

/-!
# Tree files

The dictionary of a directory is written to a file of `~/.tree_updater` as indented JSON.  The
name of the file is that of the directory with its slashes replaced, and a run for which there
is such a file already ends before it writes anything.

## Main definitions

* `NodeDict.toJson`, `treeText` — the text of a tree file.
* `Entry.Alike` — two entries that differ in nothing but contents of equal length and digest.
* `Run.exec`, `afterRuns` — `create`, once and many times.

## Main results

* `treeText_createTree_eq_iff` — **what a tree file tells apart.**
* `get?_afterRuns` — **a tree file is written once**, by the first run that gets so far.
-/

namespace Dfuser
namespace TreeUpdater

/-! ### The text -/

def PySize.toJson : PySize → Json
  | .number n => .ofInt n
  | .text s => .string s

mutual

/-- The dictionary as JSON has it. -/
def NodeDict.toJson : NodeDict → Json
  | .mk name fileType fileSize md5sum totalSize children =>
    .object [("name".toList, .string name), ("file_type".toList, .string fileType),
      ("file_size".toList, fileSize.toJson), ("md5sum".toList, .string md5sum),
      ("total_size".toList, totalSize.toJson),
      ("children".toList, .array (NodeDict.toJsons children))]

def NodeDict.toJsons : List NodeDict → List Json
  | [] => []
  | d :: ds => d.toJson :: NodeDict.toJsons ds

end

/-- `json.dump(root_node.to_dict(), f, indent=4)`. -/
def treeText (d : NodeDict) : Str := Json.dump (some 4) d.toJson

theorem PySize.integers_toJson (size : PySize) : size.toJson.Integers := by
  cases size with
  | number n => exact Json.integers_ofInt n
  | text s => trivial

theorem PySize.toJson_inj {size size' : PySize} : size.toJson = size'.toJson ↔ size = size' := by
  refine ⟨fun h => ?_, fun h => h ▸ rfl⟩
  cases size with
  | number m =>
    cases size' with
    | number n =>
      have hint := congrArg Json.int? h
      rw [toJson, toJson, Json.int?_ofInt, Json.int?_ofInt, Option.some.injEq] at hint
      exact congrArg PySize.number (Int.ofNat.inj hint)
    | text t => cases h
  | text s =>
    cases size' with
    | number n => cases h
    | text t => exact congrArg PySize.text (Json.string.inj h)

mutual

theorem NodeDict.integers_toJson : ∀ d : NodeDict, d.toJson.Integers
  | .mk _ _ fileSize _ totalSize children => by
    rw [NodeDict.toJson]
    exact ⟨trivial, trivial, fileSize.integers_toJson, trivial, totalSize.integers_toJson,
      NodeDict.integers_toJsons children, trivial⟩

theorem NodeDict.integers_toJsons : ∀ ds : List NodeDict, Json.AllIntegers (NodeDict.toJsons ds)
  | [] => trivial
  | d :: ds => ⟨d.integers_toJson, NodeDict.integers_toJsons ds⟩

end

mutual

theorem NodeDict.eq_of_toJson : ∀ d d' : NodeDict, d.toJson = d'.toJson → d = d'
  | .mk name fileType fileSize md5sum totalSize children,
    .mk name' fileType' fileSize' md5sum' totalSize' children', h => by
    simp only [NodeDict.toJson, Json.object.injEq, List.cons.injEq, Prod.mk.injEq, true_and,
      and_true, Json.string.injEq, PySize.toJson_inj, Json.array.injEq] at h
    obtain ⟨hname, htype, hsize, hmd5, htotal, hchildren⟩ := h
    rw [hname, htype, hsize, hmd5, htotal, NodeDict.eq_of_toJsons children children' hchildren]

theorem NodeDict.eq_of_toJsons : ∀ ds ds' : List NodeDict,
    NodeDict.toJsons ds = NodeDict.toJsons ds' → ds = ds'
  | [], [], _ => rfl
  | [], _ :: _, h => by cases h
  | _ :: _, [], h => by cases h
  | d :: ds, d' :: ds', h => by
    rw [NodeDict.toJsons, NodeDict.toJsons, List.cons.injEq] at h
    rw [NodeDict.eq_of_toJson d d' h.1, NodeDict.eq_of_toJsons ds ds' h.2]

end

/-- A dictionary is known from its text. -/
theorem treeText_inj {d d' : NodeDict} : treeText d = treeText d' ↔ d = d' := by
  refine ⟨fun h => ?_, fun h => h ▸ rfl⟩
  have hparse := congrArg Json.parse h
  rw [treeText, treeText, Json.parse_dump (some 4) d.integers_toJson,
    Json.parse_dump (some 4) d'.integers_toJson, Option.some.injEq] at hparse
  exact NodeDict.eq_of_toJson d d' hparse

/-! ### What the text tells apart -/

variable (md5 : List UInt8 → Str)

mutual

/-- The entries have the same names, nesting and sizes, and files the same digests. -/
def Entry.Alike : Entry → Entry → Prop
  | .file n content, .file n' content' =>
    n = n' ∧ content.length = content'.length ∧ md5 content = md5 content'
  | .dir n size es, .dir n' size' es' => n = n' ∧ size = size' ∧ Entry.Alikes es es'
  | .file _ _, .dir _ _ _ => False
  | .dir _ _ _, .file _ _ => False

def Entry.Alikes : List Entry → List Entry → Prop
  | [], [] => True
  | e :: es, e' :: es' => e.Alike e' ∧ Entry.Alikes es es'
  | [], _ :: _ => False
  | _ :: _, [] => False

end

mutual

theorem toDict_getNode_eq_iff {path path' : Str} : ∀ e e' : Entry,
    osBasename path = e.name.1 → osBasename path' = e'.name.1 →
      ((getNode md5 path e).toDict = (getNode md5 path' e').toDict ↔ e.Alike md5 e')
  | .file n content, .file n' content', hname, hname' => by
    rw [getNode, getNode, FileNode.init, FileNode.init, FileNode.toDict, FileNode.toDict, hname,
      hname']
    simp [Entry.Alike, Entry.name, Subtype.ext_iff, FileNode.toDicts]
  | .file n content, .dir n' size' es', hname, hname' => by
    rw [getNode, getNode_dir, FileNode.init, FileNode.toDict, FileNode.toDict]
    simp [Entry.Alike]
  | .dir n size es, .file n' content', hname, hname' => by
    rw [getNode, getNode_dir, FileNode.init, FileNode.toDict, FileNode.toDict]
    simp [Entry.Alike]
  | .dir n size es, .dir n' size' es', hname, hname' => by
    rw [getNode_dir, getNode_dir, FileNode.toDict, FileNode.toDict, hname, hname']
    simp [Entry.Alike, Entry.name, Subtype.ext_iff, toDicts_children_eq_iff es es']

theorem toDicts_children_eq_iff {directory directory' : Str} : ∀ es es' : List Entry,
    (FileNode.toDicts (es.map (childNode md5 directory)) =
      FileNode.toDicts (es'.map (childNode md5 directory')) ↔ Entry.Alikes md5 es es')
  | [], [] => by simp [Entry.Alikes]
  | [], _ :: _ => by simp [Entry.Alikes, FileNode.toDicts]
  | _ :: _, [] => by simp [Entry.Alikes, FileNode.toDicts]
  | e :: es, e' :: es' => by
    rw [List.map_cons, List.map_cons, FileNode.toDicts, FileNode.toDicts, List.cons.injEq,
      Entry.Alikes, toDicts_children_eq_iff es es', childNode, childNode,
      toDict_getNode_eq_iff e e' (osBasename_child directory e) (osBasename_child directory' e')]

end

/-- **What a tree file tells apart.**  Two directories are written as the same text exactly
when their last names are the same and their entries, listed in the same order, have the same
names, nesting, sizes and digests: no two names run into each other in the text. -/
theorem treeText_createTree_eq_iff (rootPath rootPath' : Str) (es es' : List Entry) :
    treeText (createTree md5 rootPath es).toDict = treeText (createTree md5 rootPath' es').toDict ↔
      osBasename rootPath = osBasename rootPath' ∧ Entry.Alikes md5 es es' := by
  rw [treeText_inj, createTree_eq, createTree_eq, FileNode.toDict, FileNode.toDict]
  simp [toDicts_children_eq_iff md5 es es']

/-! ### Runs -/

/-- `create_new_tree_file`: the name of the tree file of a directory. -/
def treeFile (directory : Str) : Str :=
  (directory.map fun c => if c = '/' then '_' else c) ++ ".tree".toList

/-- A run of `create`: its argument, and what is there at that time, if it is a directory. -/
structure Run where
  directory : Str
  listing : Option (List Entry)

/-- How a run ends. -/
inductive Ending
  | written
  /-- `sys.exit(1)`. -/
  | alreadyExists
  /-- `os.listdir` fails. -/
  | fileNotFound
  deriving DecidableEq, Repr

/-- The text that a run writes, if it gets so far. -/
def Run.text (r : Run) : Option Str :=
  r.listing.map fun es => treeText (createTree md5 r.directory es).toDict

/-- `main`, on the tree files that there are. -/
def Run.exec (r : Run) (trees : Dict Str Str) : Ending × Dict Str Str :=
  if (trees.get? (treeFile r.directory)).isSome then (.alreadyExists, trees)
  else
    match r.listing with
    | none => (.fileNotFound, trees)
    | some es =>
      -- the file is opened when the tree is complete
      (.written, trees.set (treeFile r.directory) (treeText (createTree md5 r.directory es).toDict))

def afterRuns (trees : Dict Str Str) (runs : List Run) : Dict Str Str :=
  runs.foldl (fun trees r => (r.exec md5 trees).2) trees

/-- What one run does to a tree file. -/
theorem get?_exec (r : Run) (trees : Dict Str Str) (file : Str) :
    (r.exec md5 trees).2.get? file =
      (trees.get? file).or (if treeFile r.directory = file then r.text md5 else none) := by
  unfold Run.exec Run.text
  by_cases hfile : treeFile r.directory = file
  · subst hfile
    cases hget : trees.get? (treeFile r.directory) with
    | some text => simp [hget]
    | none => cases r.listing <;> simp [hget]
  · rw [if_neg hfile, Option.or_none]
    split
    · rfl
    · cases r.listing with
      | none => rfl
      | some es => exact Dict.get?_set_of_ne _ (Ne.symm hfile) _

/-- **A tree file is written once.**  After any runs it holds what it held before, or else the
text of the first run with this file that found its directory; later states of the directory,
and other directories that share the file, never get into it. -/
theorem get?_afterRuns (trees : Dict Str Str) (runs : List Run) (file : Str) :
    (afterRuns md5 trees runs).get? file =
      (trees.get? file).or
        ((runs.filter fun r => treeFile r.directory = file).findSome? (Run.text md5)) := by
  induction runs generalizing trees with
  | nil => simp [afterRuns]
  | cons r runs ih =>
    have hstep : afterRuns md5 trees (r :: runs) = afterRuns md5 (r.exec md5 trees).2 runs := rfl
    rw [hstep, ih, get?_exec, Option.or_assoc]
    by_cases hfile : treeFile r.directory = file
    · rw [if_pos hfile, List.filter_cons_of_pos (by simpa using hfile), List.findSome?_cons]
      cases r.text md5 <;> rfl
    · rw [if_neg hfile, List.filter_cons_of_neg (by simpa using hfile), Option.none_or]

/-- `create a/b`, then `create a_b`: the second directory is never written. -/
example (es es' : List Entry) :
    (afterRuns md5 Dict.empty [⟨"a/b".toList, some es⟩, ⟨"a_b".toList, some es'⟩]).keys =
      ["a_b.tree".toList] := by
  rfl

end TreeUpdater
end Dfuser
