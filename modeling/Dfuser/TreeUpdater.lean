import Dfuser.Lib.FileSystem
import Dfuser.Lib.Python

/-!
# Sizes of a directory tree

`scripts/bash/tree_updater.py` builds a tree of nodes from a directory and writes it out.
A node has a total size, which starts at zero and is computed by `get_total_size`; `main`
writes the tree without ever asking for it.  The root that `main` builds has an empty text
for its size, to which no number can be added.

The tree on the disk has no links.  The digest of a file is a parameter.  That a tree file
which is there already ends the run, and the text that `json.dump` makes of the
dictionary, are left out.

## Main definitions

* `getNode`, `buildTreeRecursive`, `createTree` — the nodes of a directory.
* `FileNode.getTotalSize`, `FileNode.toDict` — the sizes, and what is written.
* `CreatesTotals` — the tree that is written mirrors the disk, with the right totals.

## Main results

* `mirrors_createTree` — what is written mirrors the disk.
* `getTotalSize_getNode` — **`get_total_size` is right below the root.**
* `totalsRight_createTree_iff` — the totals that are written are right when nothing has a size.
* `not_createsTotals` — the root never has a total.
-/

namespace Dfuser
namespace TreeUpdater

/-! ### Directories -/

/-- A name of a file or a directory. -/
abbrev Name := {n : Str // ValidName n}

/-- An entry of a directory.  A directory has a size of its own. -/
inductive Entry
  | file (name : Name) (content : List UInt8)
  | dir (name : Name) (size : ℕ) (entries : List Entry)

def Entry.name : Entry → Name
  | .file name _ => name
  | .dir name _ _ => name

mutual

/-- The sizes of an entry and of everything below it. -/
def Entry.total : Entry → ℕ
  | .file _ content => content.length
  | .dir _ size entries => size + Entry.totals entries

def Entry.totals : List Entry → ℕ
  | [] => 0
  | e :: es => e.total + Entry.totals es

end

/-! ### The program -/

/-- The exceptions the program can raise. -/
inductive PyError
  | typeError
  deriving DecidableEq, Repr

/-- The value of `file_size`: a number, or a text. -/
inductive PySize
  | number (n : ℕ)
  | text (s : Str)
  deriving DecidableEq, Repr

/-- `total_size += size`. -/
def PySize.add : PySize → PySize → Except PyError PySize
  | .number m, .number n => .ok (.number (m + n))
  | .text s, .text t => .ok (.text (s ++ t))
  | _, _ => .error .typeError

/-- `FileNode`. -/
inductive FileNode
  | mk (name fullPath fileType : Str) (fileSize : PySize) (md5sum : Str) (totalSize : PySize)
      (children : List FileNode)

/-- `FileNode.__init__`. -/
def FileNode.init (name fullPath fileType : Str) (fileSize : PySize) (md5sum : Str) : FileNode :=
  .mk name fullPath fileType fileSize md5sum (.number 0) []

/-- `add_child`. -/
def FileNode.addChild : FileNode → FileNode → FileNode
  | .mk name fullPath fileType fileSize md5sum totalSize children, child =>
    .mk name fullPath fileType fileSize md5sum totalSize (children ++ [child])

mutual

/-- `get_total_size`: the total, and the node in which it is remembered. -/
def FileNode.getTotalSize : FileNode → Except PyError (PySize × FileNode)
  | .mk name fullPath fileType fileSize md5sum _ children => do
    let (total, children) ← FileNode.addTotals fileSize children
    return (total, .mk name fullPath fileType fileSize md5sum total children)

/-- The loop over the children. -/
def FileNode.addTotals (total : PySize) : List FileNode → Except PyError (PySize × List FileNode)
  | [] => .ok (total, [])
  | child :: children => do
    let (size, child) ← child.getTotalSize
    let total ← total.add size
    let (total, children) ← FileNode.addTotals total children
    return (total, child :: children)

end

/-- The dictionary of a node. -/
inductive NodeDict
  | mk (name fileType : Str) (fileSize : PySize) (md5sum : Str) (totalSize : PySize)
      (children : List NodeDict)

mutual

/-- `to_dict`. -/
def FileNode.toDict : FileNode → NodeDict
  | .mk name _ fileType fileSize md5sum totalSize children =>
    .mk name fileType fileSize md5sum totalSize (FileNode.toDicts children)

def FileNode.toDicts : List FileNode → List NodeDict
  | [] => []
  | child :: children => child.toDict :: FileNode.toDicts children

end

variable (md5 : List UInt8 → Str)

mutual

/-- `get_node`, at a path where the entry is. -/
def getNode (filePath : Str) : Entry → FileNode
  | .file _ content =>
    .init (osBasename filePath) filePath "file".toList (.number content.length) (md5 content)
  | .dir _ size entries =>
    buildTreeRecursive (.init (osBasename filePath) filePath "dir".toList (.number size) [])
      filePath entries

/-- `build_tree_recursive`, on the entries in the order they are listed in. -/
def buildTreeRecursive (rootNode : FileNode) (directory : Str) : List Entry → FileNode
  | [] => rootNode
  | e :: es =>
    buildTreeRecursive (rootNode.addChild (getNode (osJoin directory e.name.1) e)) directory es

end

/-- The tree that `main` builds. -/
def createTree (rootPath : Str) (entries : List Entry) : FileNode :=
  buildTreeRecursive md5 (.init (osBasename rootPath) rootPath "dir".toList (.text []) []) rootPath
    entries

/-! ### What is claimed of a dictionary -/

/-- The number of a size; a text counts for nothing. -/
def PySize.value : PySize → ℕ
  | .number n => n
  | .text _ => 0

mutual

/-- The sizes of a node and of everything below it. -/
def NodeDict.sum : NodeDict → ℕ
  | .mk _ _ fileSize _ _ children => fileSize.value + NodeDict.sums children

def NodeDict.sums : List NodeDict → ℕ
  | [] => 0
  | d :: ds => d.sum + NodeDict.sums ds

end

mutual

/-- The total of every node is the sum of the sizes from it down. -/
def NodeDict.TotalsRight : NodeDict → Prop
  | .mk _ _ fileSize _ totalSize children =>
    totalSize = .number (fileSize.value + NodeDict.sums children) ∧ NodeDict.AllTotalsRight children

def NodeDict.AllTotalsRight : List NodeDict → Prop
  | [] => True
  | d :: ds => d.TotalsRight ∧ NodeDict.AllTotalsRight ds

end

mutual

/-- One node for the entry and for each entry below it, nested in the same way. -/
def Mirrors : NodeDict → Entry → Prop
  | .mk name fileType fileSize _ _ children, .file n content =>
    name = n.1 ∧ fileType = "file".toList ∧ fileSize = .number content.length ∧ children = []
  | .mk name fileType fileSize _ _ children, .dir n size entries =>
    name = n.1 ∧ fileType = "dir".toList ∧ fileSize = .number size ∧ MirrorsAll children entries

def MirrorsAll : List NodeDict → List Entry → Prop
  | [], [] => True
  | d :: ds, e :: es => Mirrors d e ∧ MirrorsAll ds es
  | _, _ => False

end

/-- The nodes below the root of a dictionary. -/
def NodeDict.children : NodeDict → List NodeDict
  | .mk _ _ _ _ _ children => children

/-- The dictionary that is written mirrors the directory, every total in it is the sum of
the sizes, and asking the root for its total gives this sum. -/
structure CreatesTotals (rootPath : Str) (entries : List Entry) : Prop where
  nested : MirrorsAll (createTree md5 rootPath entries).toDict.children entries
  totals : (createTree md5 rootPath entries).toDict.TotalsRight
  returned : ∃ node, (createTree md5 rootPath entries).getTotalSize =
    .ok (.number (createTree md5 rootPath entries).toDict.sum, node)

/-! ### What is built -/

/-- The node of an entry of a directory. -/
def childNode (directory : Str) (e : Entry) : FileNode := getNode md5 (osJoin directory e.name.1) e

/-- The loop appends a node for each entry. -/
theorem buildTreeRecursive_eq (name path type : Str) (size : PySize) (sum : Str) (total : PySize)
    (children : List FileNode) (directory : Str) (es : List Entry) :
    buildTreeRecursive md5 (.mk name path type size sum total children) directory es =
      .mk name path type size sum total (children ++ es.map (childNode md5 directory)) := by
  induction es generalizing children with
  | nil => simp [buildTreeRecursive]
  | cons e es ih =>
    rw [buildTreeRecursive, FileNode.addChild, ih]
    simp [childNode]

theorem getNode_dir (path : Str) (n : Name) (size : ℕ) (es : List Entry) :
    getNode md5 path (.dir n size es) =
      .mk (osBasename path) path "dir".toList (.number size) [] (.number 0)
        (es.map (childNode md5 path)) := by
  rw [getNode, FileNode.init, buildTreeRecursive_eq, List.nil_append]

theorem createTree_eq (rootPath : Str) (es : List Entry) :
    createTree md5 rootPath es =
      .mk (osBasename rootPath) rootPath "dir".toList (.text []) [] (.number 0)
        (es.map (childNode md5 rootPath)) := by
  rw [createTree, FileNode.init, buildTreeRecursive_eq, List.nil_append]

theorem osBasename_child (directory : Str) (e : Entry) :
    osBasename (osJoin directory e.name.1) = e.name.1 := osBasename_osJoin e.name.2.2.1 directory

/-! ### Nesting -/

mutual

theorem mirrors_getNode (path : Str) :
    ∀ e : Entry, osBasename path = e.name.1 → Mirrors (getNode md5 path e).toDict e
  | .file n content, hname => by
    rw [getNode, FileNode.init, FileNode.toDict]
    exact ⟨hname, rfl, rfl, rfl⟩
  | .dir n size es, hname => by
    rw [getNode_dir, FileNode.toDict]
    exact ⟨hname, rfl, rfl, mirrorsAll_children path es⟩

theorem mirrorsAll_children (directory : Str) :
    ∀ es : List Entry, MirrorsAll (FileNode.toDicts (es.map (childNode md5 directory))) es
  | [] => trivial
  | e :: es => by
    rw [List.map_cons, FileNode.toDicts]
    exact ⟨mirrors_getNode _ e (osBasename_child directory e), mirrorsAll_children directory es⟩

end

/-- **What is written mirrors the disk.** -/
theorem mirrors_createTree (rootPath : Str) (es : List Entry) :
    MirrorsAll (createTree md5 rootPath es).toDict.children es := by
  rw [createTree_eq, FileNode.toDict]
  exact mirrorsAll_children md5 rootPath es

/-! ### The totals that are written -/

mutual

theorem sum_getNode (path : Str) : ∀ e : Entry, (getNode md5 path e).toDict.sum = e.total
  | .file n content => by
    rw [getNode, FileNode.init, FileNode.toDict]
    rfl
  | .dir n size es => by
    rw [getNode_dir, FileNode.toDict, NodeDict.sum, sums_children path es]
    rfl

theorem sums_children (directory : Str) :
    ∀ es : List Entry, NodeDict.sums (FileNode.toDicts (es.map (childNode md5 directory))) =
      Entry.totals es
  | [] => rfl
  | e :: es => by
    rw [List.map_cons, FileNode.toDicts, NodeDict.sums, sums_children directory es, childNode,
      sum_getNode _ e]
    rfl

end

mutual

/-- No total is computed before the dictionary is made. -/
theorem totalsRight_getNode_iff (path : Str) :
    ∀ e : Entry, (getNode md5 path e).toDict.TotalsRight ↔ e.total = 0
  | .file n content => by
    rw [getNode, FileNode.init, FileNode.toDict, NodeDict.TotalsRight]
    simp [FileNode.toDicts, NodeDict.sums, NodeDict.AllTotalsRight, PySize.value, Entry.total,
      eq_comm]
  | .dir n size es => by
    rw [getNode_dir, FileNode.toDict, NodeDict.TotalsRight, sums_children,
      allTotalsRight_iff path es, PySize.value, Entry.total, PySize.number.injEq]
    omega

theorem allTotalsRight_iff (directory : Str) :
    ∀ es : List Entry,
      NodeDict.AllTotalsRight (FileNode.toDicts (es.map (childNode md5 directory))) ↔
        Entry.totals es = 0
  | [] => by simp [FileNode.toDicts, NodeDict.AllTotalsRight, Entry.totals]
  | e :: es => by
    rw [List.map_cons, FileNode.toDicts, NodeDict.AllTotalsRight, allTotalsRight_iff directory es,
      childNode, totalsRight_getNode_iff _ e, Entry.totals]
    omega

end

/-- **The totals that are written are right** when there is nothing to count. -/
theorem totalsRight_createTree_iff (rootPath : Str) (es : List Entry) :
    (createTree md5 rootPath es).toDict.TotalsRight ↔ Entry.totals es = 0 := by
  rw [createTree_eq, FileNode.toDict, NodeDict.TotalsRight, sums_children, allTotalsRight_iff,
    PySize.value, PySize.number.injEq]
  omega

/-! ### The totals that are asked for -/

mutual

/-- **Below the root `get_total_size` is right**, and remembers the totals of all nodes. -/
theorem getTotalSize_getNode (path : Str) :
    ∀ e : Entry, ∃ node, (getNode md5 path e).getTotalSize = .ok (.number e.total, node) ∧
      node.toDict.TotalsRight ∧ node.toDict.sum = e.total
  | .file n content => by
    rw [getNode, FileNode.init]
    refine ⟨_, rfl, ⟨rfl, trivial⟩, rfl⟩
  | .dir n size es => by
    obtain ⟨nodes, hadd, hright, hsum⟩ := addTotals_children path es size
    refine ⟨.mk (osBasename path) path "dir".toList (.number size) []
      (.number (size + Entry.totals es)) nodes, ?_, ⟨?_, hright⟩, ?_⟩
    · rw [getNode_dir, FileNode.getTotalSize, hadd]
      rfl
    · rw [hsum]
      rfl
    · rw [FileNode.toDict, NodeDict.sum, hsum]
      rfl

theorem addTotals_children (directory : Str) :
    ∀ (es : List Entry) (n : ℕ), ∃ nodes,
      FileNode.addTotals (.number n) (es.map (childNode md5 directory)) =
        .ok (.number (n + Entry.totals es), nodes) ∧
      NodeDict.AllTotalsRight (FileNode.toDicts nodes) ∧
      NodeDict.sums (FileNode.toDicts nodes) = Entry.totals es
  | [], n => ⟨[], rfl, trivial, rfl⟩
  | e :: es, n => by
    obtain ⟨node, hnode, hright, hsum⟩ := getTotalSize_getNode (osJoin directory e.name.1) e
    obtain ⟨nodes, hadd, hrights, hsums⟩ := addTotals_children directory es (n + e.total)
    refine ⟨node :: nodes, ?_, ⟨hright, hrights⟩, ?_⟩
    · rw [List.map_cons, FileNode.addTotals, childNode, hnode]
      change (FileNode.addTotals (.number (n + e.total))
        (es.map (childNode md5 directory)) >>= _) = _
      rw [hadd, Entry.totals, ← Nat.add_assoc]
      rfl
    · rw [FileNode.toDicts, NodeDict.sums, hsum, hsums]
      rfl

end

/-- The root has a text for its size: to nothing it adds nothing, to anything else it
cannot be added. -/
theorem getTotalSize_createTree (rootPath : Str) (es : List Entry) :
    (createTree md5 rootPath es).getTotalSize =
      if es = [] then .ok (.text [], .mk (osBasename rootPath) rootPath "dir".toList (.text []) []
        (.text []) [])
      else .error .typeError := by
  rw [createTree_eq]
  cases es with
  | nil => rfl
  | cons e es =>
    obtain ⟨node, hnode, -⟩ := getTotalSize_getNode md5 (osJoin rootPath e.name.1) e
    rw [if_neg (List.cons_ne_nil e es), FileNode.getTotalSize, List.map_cons, FileNode.addTotals,
      childNode, hnode]
    rfl

/-- **No directory gets its totals.** -/
theorem not_createsTotals (rootPath : Str) (entries : List Entry) :
    ¬ CreatesTotals md5 rootPath entries := by
  intro h
  obtain ⟨node, hreturned⟩ := h.returned
  rw [getTotalSize_createTree] at hreturned
  split at hreturned
  · cases hreturned
  · cases hreturned

/-- A directory with one file of one byte, and the digest of this byte. -/
theorem not_createsTotals_oneByte :
    ¬ CreatesTotals (fun _ => "93b885adfe0da089cdf634904fd59f71".toList) "/d".toList
      [.file ⟨"a".toList, by decide⟩ [0]] := by
  intro h
  have hzero := (totalsRight_createTree_iff _ _ _).mp h.totals
  revert hzero
  decide

end TreeUpdater
end Dfuser
