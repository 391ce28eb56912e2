import Dfuser.Lib.Joined
import Dfuser.Dotdir.Drawing

/-!
# The names of the nodes

The name of a node is made of the components of a path with `_` between them, so that
entries of the same name in different directories have nodes of their own.  The
component of a path may contain `_` too, and then nodes can be merged in the picture: a
file `b` in a directory `a` has the name of a file `a_b` next to it.

* `drawn` — the paths of the entries that have a node.
* `IsTree` — a graph that is the tree of a set of paths.
* `main_isTree_iff` — **the graph is the directory tree exactly if no two entries next
  to each other overlap.**
-/

namespace Dfuser
namespace Dotdir

/-! ### Trees -/

/-- The paths that are drawn, seen from the directory: its own, and those within the
levels that are walked without an ignored name, of files only where these are kept. -/
def drawn (maxLevel : ℤ) (dirsOnly : Bool) (contents : Listing Str) : Set (List Str) :=
  {path | path = [] ∨ ∃ k, contents.Has path k ∧ (path.length : ℤ) ≤ maxLevel ∧
    (∀ name ∈ path, name ∉ pathIgnore) ∧
    (k = .file → dirsOnly = false ∧ path.getLast? ≠ some tempDot)}

/-- The graph has one node for each of the paths and one edge to each from the path
above it. -/
structure IsTree (paths : Set (List Str)) (name : List Str → Str) (g : Graph) : Prop where
  injOn : Set.InjOn name paths
  nodup_nodes : (g.dotNodes.map DotNode.name).Nodup
  mem_nodes : ∀ x, x ∈ g.dotNodes.map DotNode.name ↔ ∃ path ∈ paths, name path = x
  nodup_edges : g.dotEdges.Nodup
  mem_edges : ∀ e, e ∈ g.dotEdges ↔
    ∃ path n, path ∈ paths ∧ path ++ [n] ∈ paths ∧ e = (name path, name (path ++ [n]))

/-- The paths of the nodes, in the order they are added. -/
def drawnPaths (maxLevel : ℤ) (dirsOnly : Bool) (contents : Listing Str) : List (List Str) :=
  [] :: (reported maxLevel 0 dirsOnly contents).map Prod.fst

section

variable {maxLevel : ℤ} {dirsOnly : Bool} {contents : Listing Str}

theorem mem_drawnPaths_iff {path : List Str} :
    path ∈ drawnPaths maxLevel dirsOnly contents ↔ path ∈ drawn maxLevel dirsOnly contents := by
  have hreported : (∃ k, (path, k) ∈ reported maxLevel 0 dirsOnly contents) ↔
      ∃ k, contents.Has path k ∧ (path.length : ℤ) ≤ maxLevel ∧
        (∀ name ∈ path, name ∉ pathIgnore) ∧
        (k = .file → dirsOnly = false ∧ path.getLast? ≠ some tempDot) := by
    refine exists_congr fun k => ?_
    rw [mem_reported_iff, sub_zero]
  refine List.mem_cons.trans (or_congr_right ?_)
  rw [← hreported, List.mem_map]
  constructor
  · intro hex
    obtain ⟨⟨p, k⟩, hmem, rfl⟩ := hex
    exact ⟨k, hmem⟩
  · intro hex
    obtain ⟨k, hmem⟩ := hex
    exact ⟨(path, k), hmem, rfl⟩

/-- All but the first of the paths that are drawn lie below the directory. -/
theorem mem_tail_drawnPaths_iff {path : List Str} :
    path ∈ (drawnPaths maxLevel dirsOnly contents).tail ↔
      path ≠ [] ∧ path ∈ drawn maxLevel dirsOnly contents := by
  rw [← mem_drawnPaths_iff, drawnPaths, List.tail_cons, List.mem_cons]
  constructor
  · intro hmem
    obtain ⟨e, he, rfl⟩ := List.mem_map.mp hmem
    exact ⟨ne_nil_of_mem_reported he, .inr (List.mem_map_of_mem he)⟩
  · intro hmem
    exact hmem.2.resolve_left hmem.1

theorem nodup_drawnPaths (hunique : contents.Unique) :
    (drawnPaths maxLevel dirsOnly contents).Nodup := by
  refine List.nodup_cons.mpr ⟨?_, Listing.nodup_select _ _ hunique _⟩
  intro hmem
  obtain ⟨e, he, hnil⟩ := List.mem_map.mp hmem
  exact ne_nil_of_mem_reported he hnil

/-- What is drawn hangs below something that is drawn. -/
theorem mem_drawn_of_concat {path : List Str} {name : Str}
    (h : path ++ [name] ∈ drawn maxLevel dirsOnly contents) :
    path ∈ drawn maxLevel dirsOnly contents := by
  by_cases hpath : path = []
  · exact .inl hpath
  · rcases h with hnil | ⟨k, hhas, hlen, hnames, _⟩
    · simp at hnil
    · refine .inr ⟨.dir, hhas.parent hpath, ?_, ?_, ?_⟩
      · rw [List.length_append] at hlen
        push_cast at hlen
        simp only [List.length_singleton, Nat.cast_one] at hlen
        omega
      · intro n hn
        exact hnames n (List.mem_append_left _ hn)
      · intro hfile
        cases hfile

/-- A graph with the nodes and edges of what is drawn is the tree, if no two names are
the same. -/
theorem isTree_of_injOn {name : List Str → Str} {g : Graph} (hunique : contents.Unique)
    (hnodes : g.dotNodes.map DotNode.name = (drawnPaths maxLevel dirsOnly contents).map name)
    (hedges : g.dotEdges = (drawnPaths maxLevel dirsOnly contents).tail.map
      (fun path => (name path.dropLast, name path)))
    (hinj : Set.InjOn name (drawn maxLevel dirsOnly contents)) :
    IsTree (drawn maxLevel dirsOnly contents) name g := by
  have hpaths : (drawnPaths maxLevel dirsOnly contents).Nodup := nodup_drawnPaths hunique
  refine ⟨hinj, ?_, ?_, ?_, ?_⟩
  · rw [hnodes]
    exact hpaths.map_on fun p hp q hq hpq =>
      hinj (mem_drawnPaths_iff.mp hp) (mem_drawnPaths_iff.mp hq) hpq
  · intro x
    rw [hnodes, List.mem_map]
    simp only [mem_drawnPaths_iff]
  · rw [hedges]
    refine hpaths.tail.map_on fun p hp q hq hpq => ?_
    exact hinj (mem_tail_drawnPaths_iff.mp hp).2 (mem_tail_drawnPaths_iff.mp hq).2
      (congrArg Prod.snd hpq)
  · intro e
    rw [hedges, List.mem_map]
    constructor
    · intro hex
      obtain ⟨q, hq, rfl⟩ := hex
      obtain ⟨hnil, hq⟩ := mem_tail_drawnPaths_iff.mp hq
      obtain ⟨path, n, rfl⟩ := (List.eq_nil_or_concat' q).resolve_left hnil
      exact ⟨path, n, mem_drawn_of_concat hq, hq, by rw [List.dropLast_concat]⟩
    · intro hex
      obtain ⟨path, n, _, hq, rfl⟩ := hex
      exact ⟨path ++ [n], mem_tail_drawnPaths_iff.mpr ⟨by simp, hq⟩,
        by rw [List.dropLast_concat]⟩

end

/-! ### The names -/

theorem joinNames_append {history : List Str} (h : history ≠ []) (path : List Str) :
    joinNames (history ++ path) = joinNames history ++ Joined.spell '_' path :=
  Joined.intercalate_append '_' h path

section

variable (lower : Str → Str) {arguments : Arguments} {root : Root} {username : Option Str}
  {g : Graph}

/-- The names and the edges of the graph, in the order they are added. -/
theorem main_names (h : main lower arguments (some root) username = .ok g) :
    ∃ history, history ≠ [] ∧
      g.dotNodes.map DotNode.name =
        (drawnPaths arguments.maxLevel arguments.dirsOnly root.contents).map
          (fun path => joinNames (history ++ path)) ∧
      g.dotEdges =
        (drawnPaths arguments.maxLevel arguments.dirsOnly root.contents).tail.map
          (fun path => (joinNames (history ++ path.dropLast), joinNames (history ++ path))) := by
  obtain ⟨history, g₀, hhist, hfolder, rfl⟩ := main_eq_ok lower h
  have hne : history ≠ [] := by
    intro hnil
    apply joinNames_treeHistory_ne_nil hhist
    rw [hnil]
    rfl
  have hname : ∀ e : List Str × Kind,
      (dotNodeOf lower history 0 e).name = joinNames (history ++ e.1) := by
    intro e
    obtain ⟨path, k⟩ := e
    cases k <;> rfl
  refine ⟨history, hne, ?_, ?_⟩
  · rw [addFolder_eq_ok hfolder]
    simp [Graph.extend, Graph.new, drawnPaths, hname, Function.comp_def]
  · rw [addFolder_eq_ok hfolder]
    simp [Graph.extend, Graph.new, drawnPaths, parentEdge, dotEdgeOf, Function.comp_def]

/-- **The picture.**  The graph is the tree of what is drawn, for whatever names, exactly
if no two entries next to each other overlap: nowhere is there, beside a directory `a`,
an entry `a_x` such that the names below `a` on the way to something drawn spell `x`, or
`x` and the names on the way to something below `a_x`. -/
theorem main_isTree_iff (h : main lower arguments (some root) username = .ok g) :
    (∃ name, IsTree (drawn arguments.maxLevel arguments.dirsOnly root.contents) name g) ↔
      ¬ Joined.Overlaps '_' (drawn arguments.maxLevel arguments.dirsOnly root.contents) := by
  obtain ⟨history, hne, hnodes, hedges⟩ := main_names lower h
  have hname : ∀ {p q : List Str}, joinNames (history ++ p) = joinNames (history ++ q) ↔
      Joined.spell '_' p = Joined.spell '_' q := by
    intro p q
    rw [joinNames_append hne, joinNames_append hne, List.append_cancel_left_eq]
  rw [← Joined.injOn_spell_iff]
  constructor
  · intro htree p hp q hq hspell
    obtain ⟨name, htree⟩ := htree
    have hnodup := htree.nodup_nodes
    rw [hnodes] at hnodup
    exact List.inj_on_of_nodup_map hnodup (mem_drawnPaths_iff.mpr hp) (mem_drawnPaths_iff.mpr hq)
      (hname.mpr hspell)
  · intro hinj
    refine ⟨_, isTree_of_injOn root.unique hnodes hedges ?_⟩
    intro p hp q hq hpq
    exact hinj hp hq (hname.mp hpq)

end

/-- The home of a user, with a directory and a file in it. -/
def plainRoot : Root :=
  ⟨["home".toList, "u".toList], "u".toList,
    .dir "src".toList (.file "a.c".toList .nil) (.file "b".toList .nil), by decide⟩

/-- No name in it has a `_`. -/
theorem main_isTree_iff_plain :
    ∃ g, main id ⟨none, false⟩ (some plainRoot) (some "u".toList) = .ok g ∧
      ∃ name, IsTree (drawn 3 false plainRoot.contents) name g := by
  obtain ⟨g, hg⟩ : ∃ g, main id ⟨none, false⟩ (some plainRoot) (some "u".toList) = .ok g := ⟨_, rfl⟩
  refine ⟨g, hg, (main_isTree_iff id hg).mpr (Joined.not_overlaps_of_not_mem ?_)⟩
  have hall : (drawnPaths 3 false plainRoot.contents).all
      (fun path => path.all fun name => name.all (· ≠ '_')) = true := by
    decide
  intro path hpath name hname hmem
  have hchars := List.all_eq_true.mp
    (List.all_eq_true.mp (List.all_eq_true.mp hall path (mem_drawnPaths_iff.mpr hpath)) name hname)
  simpa using hchars '_' hmem

/-- The same with a directory `a`, a file `b` in it and a file `a_b` next to it. -/
def mergedRoot : Root :=
  ⟨["home".toList, "u".toList], "u".toList,
    .dir "a".toList (.file "b".toList .nil) (.file "a_b".toList .nil), by decide⟩

/-- Two of the four nodes have one name. -/
theorem not_main_isTree_merged :
    ∃ g, main id ⟨none, false⟩ (some mergedRoot) (some "u".toList) = .ok g ∧
      ¬ ∃ name, IsTree (drawn 3 false mergedRoot.contents) name g := by
  refine ⟨_, rfl, ?_⟩
  intro htree
  obtain ⟨name, htree⟩ := htree
  exact absurd htree.nodup_nodes (by decide)

end Dotdir
end Dfuser
