import Dfuser.Lib.DirTree
import Dfuser.Lib.Replace
import Dfuser.Lib.Run
import Dfuser.Mkdocs.Headers

/-!
# Creating the pages of a navigation

`create_markdown_files` of `scripts/bash/mkdocs_generate.py` reads the `nav` of a mkdocs
file and creates the pages it refers to.  A `nav` is nested to any depth; the code looks
for titles on the first level, and for titled pages in the lists on the second one.

The tree is that of the directory of the mkdocs file, without links.  How a word is
capitalized is a parameter.  The titles that are collected and never read are left out.

## Main definitions

* `Nav` — an item of a navigation, and `Nav.pages`, the pages it refers to.
* `checkAndCreateFile`, `createMarkdownFiles` — the tree afterwards.
* `Creates` — every page that was missing is created, and no other page is changed.

## Main results

* `createMarkdownFiles_keeps` — nothing that was there is changed, also when the run fails.
* `checkAndCreateFile_ok` — what one page creates.
* `creates_iff` — **when every page is created.**
-/

namespace Dfuser
namespace Mkdocs

/-! ### Navigations -/

/-- A path below `docs`. -/
structure Page where
  names : Path
  ne_nil : names ≠ []
  valid : ∀ n ∈ names, ValidName n

/-- An item of a navigation. -/
inductive Nav
  | page (path : Page)
  | titledPage (title : Str) (path : Page)
  | titledList (title : Str) (items : List Nav)

mutual

/-- The pages an item refers to. -/
def Nav.pages : Nav → List Page
  | .page path => [path]
  | .titledPage _ path => [path]
  | .titledList _ items => Nav.pagesOf items

/-- The pages the items of a list refer to. -/
def Nav.pagesOf : List Nav → List Page
  | [] => []
  | item :: items => item.pages ++ Nav.pagesOf items

end

/-! ### The program -/

/-- The exceptions the program can raise. -/
inductive PyError
  /-- Asking a text for its items. -/
  | attributeError
  /-- Joining a path and a list. -/
  | typeError
  | osError
  | unicodeDecodeError
  deriving DecidableEq, Repr

/-- The directory of the mkdocs file. -/
abbrev Docs := DirTree (List UInt8)

/-- A run that was stopped, and the tree it left. -/
structure Stopped where
  error : PyError
  tree : Docs

variable (capitalize : Str → Str)

/-- `unslugify`. -/
def unslugify (slug : Str) : Str :=
  List.intercalate [' '] ((slug.splitOn '-').map capitalize)

/-- `os.path.basename(file_path).replace('.md', '')`. -/
def pageName (p : Path) : Str := replaceAll ".md".toList [] (p.getLast?.getD [])

/-- The metadata of a new page. -/
def pageMetadata (p : Path) : Dict Str Str :=
  [("title", pageName p), ("date", "2023-12-15T05:28:55-05:00".toList),
    ("lastmod", "2023-12-15T05:28:55-05:00".toList), ("draft", "false".toList),
    ("tags", "[]".toList), ("categories", "[]".toList), ("slug", pageName p),
    ("author", "Mathew Cosgrove".toList), ("summary", [])].foldl
      (fun metadata e => metadata.set e.1.toList e.2) Dict.empty

/-- `os.makedirs(…, exist_ok=True)`. -/
def makedirs (t : Docs) (p : Path) : Except Stopped Docs :=
  (t.makeDirs [] p).mapError (Stopped.mk .osError)

/-- `open(…, 'w')`: the file is created, or emptied. -/
def openForWriting (t : Docs) (p : Path) : Except Stopped Docs :=
  match t.node p, p.getLast? with
  | none, some n =>
    if t.isDirAt p.dropLast then .ok (t.add p.dropLast n (.file [])) else .error ⟨.osError, t⟩
  | some (.file _), _ => .ok (t.write p [])
  | _, _ => .error ⟨.osError, t⟩

/-- `add_metadata_header_to_file`, at a path. -/
def addHeaderAt (metadata : Dict Str Str) (t : Docs) (p : Path) : Except Stopped Docs :=
  match t.node p with
  | some (.file content) =>
    match addMetadataHeaderToFile metadata content with
    | some new => .ok (t.write p new)
    | none => .error ⟨.unicodeDecodeError, t⟩
  | _ => .error ⟨.osError, t⟩

/-- `check_and_create_file`. -/
def checkAndCreateFile (overwrite : Bool) (t : Docs) (p : Path) : Except Stopped Docs :=
  if overwrite ∨ (t.node p).isNone then do
    let t ← makedirs t p.dropLast
    let t ← openForWriting t p
    let t := t.write p (utf8 ("# ".toList ++ unslugify capitalize (pageName p) ++ "\n\n".toList))
    addHeaderAt (pageMetadata p) t p
  else .ok t

/-- `os.path.join(base_path, path)`, below the directory of the mkdocs file. -/
def docsPath (path : Page) : Path := "docs".toList :: path.names

/-- An item of a section. -/
def createItem (overwrite : Bool) (t : Docs) : Nav → Except Stopped Docs
  | .page _ => .error ⟨.attributeError, t⟩
  | .titledPage _ path => checkAndCreateFile capitalize overwrite t (docsPath path)
  | .titledList _ _ => .error ⟨.typeError, t⟩

/-- A section of the navigation. -/
def createSection (overwrite : Bool) (t : Docs) : Nav → Except Stopped Docs
  | .page _ => .error ⟨.attributeError, t⟩
  | .titledPage _ path => checkAndCreateFile capitalize overwrite t (docsPath path)
  | .titledList _ items => items.foldlM (createItem capitalize overwrite) t

/-- The check for the directory `docs`. -/
def ensureDocs (t : Docs) : Except Stopped Docs :=
  if (t.node ["docs".toList]).isNone then makedirs t ["docs".toList] else .ok t

/-- `create_markdown_files`. -/
def createMarkdownFiles (overwrite : Bool) (t : Docs) (nav : List Nav) : Except Stopped Docs := do
  let t ← ensureDocs t
  nav.foldlM (createSection capitalize overwrite) t

/-! ### What a run keeps -/

/-- The tree after an action, whether it was stopped or not. -/
def treeAfter : Except Stopped Docs → Docs
  | .ok t => t
  | .error stopped => stopped.tree

open DirTree (Keeps)

theorem keeps_makedirs (t : Docs) (p : Path) : Keeps t (treeAfter (makedirs t p)) := by
  have hkeeps := t.makeDirs_keeps [] p
  unfold makedirs
  cases h : t.makeDirs [] p with
  | ok t' =>
    rw [h] at hkeeps
    exact hkeeps
  | error t' =>
    rw [h] at hkeeps
    exact hkeeps

/-- A step after a step. -/
theorem keeps_bind {t : Docs} {r : Except Stopped Docs} {f : Docs → Except Stopped Docs}
    (hr : Keeps t (treeAfter r)) (hf : ∀ t', Keeps t t' → Keeps t (treeAfter (f t'))) :
    Keeps t (treeAfter (r >>= f)) := by
  cases r with
  | ok t' => exact hf t' hr
  | error stopped => exact hr

/-- A change of what was not there is no change of what was. -/
theorem keeps_write {t t' : Docs} {p : Path} (hfree : t.node p = none) (h : Keeps t t')
    (c : List UInt8) : Keeps t (t'.write p c) := by
  intro q hq
  have hne : q ≠ p := by
    rintro rfl
    exact hq hfree
  rw [← h q hq]
  exact if_neg hne

/-- **A page changes nothing that was there before.** -/
theorem keeps_checkAndCreateFile (t : Docs) (p : Path) :
    Keeps t (treeAfter (checkAndCreateFile capitalize false t p)) := by
  unfold checkAndCreateFile
  split
  · next hnone =>
    have hfree : t.node p = none := by simpa using hnone
    apply keeps_bind (keeps_makedirs t _)
    intro t₁ h₁
    apply keeps_bind
    · unfold openForWriting
      split
      · split
        · exact h₁.trans (DirTree.keeps_add t₁ _ _ _)
        · exact h₁
      · exact keeps_write hfree h₁ _
      · exact h₁
    · intro t₂ h₂
      dsimp only
      have h₃ := keeps_write hfree h₂ (utf8 ("# ".toList ++ unslugify capitalize (pageName p) ++
        "\n\n".toList))
      unfold addHeaderAt
      split
      · split
        · exact keeps_write hfree h₃ _
        · exact h₃
      · exact h₃
  · exact Keeps.refl t

theorem keeps_foldlM {step : Docs → Nav → Except Stopped Docs}
    (hstep : ∀ t item, Keeps t (treeAfter (step t item))) (items : List Nav) (t : Docs) :
    Keeps t (treeAfter (items.foldlM step t)) := by
  induction items generalizing t with
  | nil => exact Keeps.refl t
  | cons item items ih =>
    rw [List.foldlM_cons]
    apply keeps_bind (hstep t item)
    intro t' h
    exact h.trans (ih t')

theorem keeps_createSection (t : Docs) (item : Nav) :
    Keeps t (treeAfter (createSection capitalize false t item)) := by
  cases item with
  | page _ => exact Keeps.refl t
  | titledPage _ path => exact keeps_checkAndCreateFile capitalize t _
  | titledList _ items =>
    apply keeps_foldlM
    intro t item
    cases item with
    | page _ => exact Keeps.refl t
    | titledPage _ path => exact keeps_checkAndCreateFile capitalize t _
    | titledList _ _ => exact Keeps.refl t

/-- **Nothing that was there is changed**, also when the run is stopped. -/
theorem createMarkdownFiles_keeps (t : Docs) (nav : List Nav) :
    Keeps t (treeAfter (createMarkdownFiles capitalize false t nav)) := by
  unfold createMarkdownFiles
  apply keeps_bind
  · unfold ensureDocs
    split
    · exact keeps_makedirs t _
    · exact Keeps.refl t
  · intro t' h
    exact h.trans (keeps_foldlM (keeps_createSection capitalize) nav t')

/-! ### One page -/

/-- What is made for a page that was missing: the page, and directories above it. -/
def MadeFor (p : Path) (t t' : Docs) : Prop :=
  t'.IsFileAt p ∧ ∀ q, t'.node q = t.node q ∨
    (t.node q = none ∧ (q = p ∨ (t'.node q = some .dir ∧ q <+: p ∧ q ≠ p)))

theorem addMetadataHeaderToFile_of_text (metadata : Dict Str Str) (s : Str) :
    ∃ b, addMetadataHeaderToFile metadata (utf8 s) = some b := by
  rw [addMetadataHeaderToFile, readText_utf8]
  exact ⟨_, rfl⟩

/-- Opening, writing and adding the header, once the directories are there. -/
theorem writePage_ok (metadata : Dict Str Str) {t : Docs} {d : Path} {n : Str}
    (hdir : t.node d = some .dir) (hfree : t.node (d ++ [n]) = none) (text : Str) :
    ∃ t', (do
        let t ← openForWriting t (d ++ [n])
        addHeaderAt metadata (t.write (d ++ [n]) (utf8 text)) (d ++ [n])) = .ok t' ∧
      t'.IsFileAt (d ++ [n]) ∧ ∀ q, q ≠ d ++ [n] → t'.node q = t.node q := by
  have hopen : openForWriting t (d ++ [n]) = .ok (t.add d n (.file [])) := by
    unfold openForWriting
    rw [hfree, List.getLast?_concat, List.dropLast_concat]
    exact if_pos (DirTree.isDirAt_iff.mpr hdir)
  have hadd := DirTree.node_add hdir hfree (.file [])
  have hfile : (t.add d n (.file [])).IsFileAt (d ++ [n]) := ⟨[], by rw [hadd, if_pos rfl]⟩
  have hwrite := DirTree.node_write _ hfile (utf8 text)
  have hfile' : ((t.add d n (.file [])).write (d ++ [n]) (utf8 text)).IsFileAt (d ++ [n]) :=
    ⟨_, by rw [hwrite, if_pos rfl]⟩
  obtain ⟨new, hnew⟩ := addMetadataHeaderToFile_of_text metadata text
  have hwrite' := DirTree.node_write _ hfile' new
  refine ⟨((t.add d n (.file [])).write (d ++ [n]) (utf8 text)).write (d ++ [n]) new, ?_, ?_, ?_⟩
  · rw [hopen]
    change addHeaderAt metadata _ _ = _
    unfold addHeaderAt
    rw [hwrite, if_pos rfl]
    dsimp only
    rw [hnew]
  · exact ⟨new, by rw [hwrite', if_pos rfl]⟩
  · intro q hq
    rw [hwrite', if_neg hq, hwrite, if_neg hq, hadd, if_neg hq]

/-- **A missing page is created** when no file lies above it. -/
theorem checkAndCreateFile_ok {t : Docs} {p : Path} (hne : p ≠ []) (hfree : t.node p = none)
    (habove : ∀ q, q <+: p → q ≠ p → ¬ t.IsFileAt q) :
    ∃ t', checkAndCreateFile capitalize false t p = .ok t' ∧ MadeFor p t t' := by
  obtain ⟨d, n, rfl⟩ : ∃ d n, p = d ++ [n] := ⟨_, _, (List.dropLast_concat_getLast hne).symm⟩
  have hproper : ∀ r, r <+: d → r <+: d ++ [n] ∧ r ≠ d ++ [n] := by
    intro r hr
    refine ⟨hr.trans (List.prefix_append d [n]), ?_⟩
    rintro rfl
    have := hr.length_le
    simp at this
  have hway : ∀ r, r <+: d → ¬ t.IsFileAt ([] ++ r) := by
    intro r hr
    exact habove r (hproper r hr).1 (hproper r hr).2
  obtain ⟨t₁, hok, hdir, hnode⟩ := DirTree.makeDirs_ok t.root hway
  have hstill : t₁.node (d ++ [n]) = none := by
    rcases hnode (d ++ [n]) with hsame | ⟨-, -, r, hr, heq⟩
    · rw [hsame, hfree]
    · exact absurd heq.symm (hproper r hr).2
  obtain ⟨t', hok', hfile, hsame'⟩ := writePage_ok (pageMetadata (d ++ [n])) hdir hstill
    ("# ".toList ++ unslugify capitalize (pageName (d ++ [n])) ++ "\n\n".toList)
  refine ⟨t', ?_, hfile, ?_⟩
  · unfold checkAndCreateFile
    rw [if_pos (by simp [hfree]), List.dropLast_concat, makedirs, hok]
    exact hok'
  · intro q
    by_cases hq : q = d ++ [n]
    · subst hq
      exact .inr ⟨hfree, .inl rfl⟩
    · rcases hnode q with hsame | ⟨hnone, hmade, r, hr, heq⟩
      · exact .inl (by rw [hsame' q hq, hsame])
      · rw [List.nil_append] at heq
        subst heq
        rw [← hsame' q hq] at hmade
        exact .inr ⟨hnone, .inr ⟨hmade, hproper q hr⟩⟩

/-! ### All pages -/

/-- A title with a page path. -/
def Nav.IsTitledPage : Nav → Prop
  | .titledPage _ _ => True
  | _ => False

/-- A title with a page path, or with a list of such. -/
def Nav.IsSection : Nav → Prop
  | .page _ => False
  | .titledPage _ _ => True
  | .titledList _ items => ∀ item ∈ items, item.IsTitledPage

/-- The pages one after the other. -/
def createPages (t : Docs) (pages : List Page) : Except Stopped Docs :=
  pages.foldlM (fun t path => checkAndCreateFile capitalize false t (docsPath path)) t

theorem createPages_append (t : Docs) (ps qs : List Page) :
    createPages capitalize t (ps ++ qs) =
      createPages capitalize t ps >>= fun t => createPages capitalize t qs :=
  List.foldlM_append

theorem foldlM_createItem {items : List Nav} (h : ∀ item ∈ items, item.IsTitledPage) (t : Docs) :
    items.foldlM (createItem capitalize false) t =
      createPages capitalize t (Nav.pagesOf items) := by
  induction items generalizing t with
  | nil => rfl
  | cons item items ih =>
    rw [List.forall_mem_cons] at h
    cases item with
    | page _ => exact absurd h.1 id
    | titledList _ _ => exact absurd h.1 id
    | titledPage _ path =>
      rw [List.foldlM_cons, Nav.pagesOf, Nav.pages, List.singleton_append, createPages,
        List.foldlM_cons]
      exact bind_congr fun t' => ih h.2 t'

/-- Sections of the shape the code expects. -/
theorem foldlM_createSection {nav : List Nav} (h : ∀ item ∈ nav, item.IsSection) (t : Docs) :
    nav.foldlM (createSection capitalize false) t = createPages capitalize t (Nav.pagesOf nav) := by
  induction nav generalizing t with
  | nil => rfl
  | cons item nav ih =>
    rw [List.forall_mem_cons] at h
    have hitem : createSection capitalize false t item = createPages capitalize t item.pages := by
      cases item with
      | page _ => exact absurd h.1 id
      | titledPage _ path =>
        rw [Nav.pages, createPages, List.foldlM_cons]
        exact (bind_pure _).symm
      | titledList _ items => exact foldlM_createItem capitalize h.1 t
    rw [List.foldlM_cons, Nav.pagesOf, createPages_append, hitem]
    exact bind_congr fun t' => ih h.2 t'

/-- What the pages created so far have changed: where nothing was there is now a page, or
a directory above one. -/
def CreatedFrom (pages : List Page) (t cur : Docs) : Prop :=
  ∀ q, cur.node q = t.node q ∨ (t.node q = none ∧
    ∃ path ∈ pages, t.node (docsPath path) = none ∧
      ((q = docsPath path ∧ cur.IsFileAt q) ∨
        (cur.node q = some .dir ∧ q <+: docsPath path ∧ q ≠ docsPath path)))

/-- No file lies above a page that is missing, and no page that is missing as well. -/
def Clear (t : Docs) (pages : List Page) : Prop :=
  ∀ path ∈ pages, t.node (docsPath path) = none → ∀ q, q <+: docsPath path → q ≠ docsPath path →
    ¬ t.IsFileAt q ∧ ∀ other ∈ pages, t.node (docsPath other) = none → q ≠ docsPath other

/-- A page that was missing is a file as soon as something is there. -/
theorem CreatedFrom.isFileAt {pages : List Page} {t cur : Docs} (h : CreatedFrom pages t cur)
    (hclear : Clear t pages) {path : Page} (hpath : path ∈ pages)
    (hmissing : t.node (docsPath path) = none) (hnow : cur.node (docsPath path) ≠ none) :
    cur.IsFileAt (docsPath path) := by
  rcases h (docsPath path) with hsame | ⟨-, other, hother, hnone, ⟨-, hfile⟩ | ⟨-, hpre, hne⟩⟩
  · rw [hsame] at hnow
    exact absurd hmissing hnow
  · exact hfile
  · exact absurd rfl ((hclear other hother hnone _ hpre hne).2 path hpath hmissing)

/-- **One more page.** -/
theorem CreatedFrom.step {pages : List Page} {t cur : Docs} (h : CreatedFrom pages t cur)
    (hclear : Clear t pages) {path : Page} (hpath : path ∈ pages) :
    ∃ cur', checkAndCreateFile capitalize false cur (docsPath path) = .ok cur' ∧
      CreatedFrom pages t cur' ∧ cur'.node (docsPath path) ≠ none := by
  by_cases hnow : cur.node (docsPath path) = none
  · have hmissing : t.node (docsPath path) = none := by
      rcases h (docsPath path) with hsame | ⟨hnone, -⟩
      · rw [← hsame, hnow]
      · exact hnone
    have habove : ∀ q, q <+: docsPath path → q ≠ docsPath path → ¬ cur.IsFileAt q := by
      intro q hpre hne hfile
      obtain ⟨hold, hother⟩ := hclear path hpath hmissing q hpre hne
      rcases h q with hsame | ⟨-, other, hmem, hnone, ⟨rfl, -⟩ | ⟨hdir, -⟩⟩
      · obtain ⟨c, hc⟩ := hfile
        exact hold ⟨c, by rw [← hsame, hc]⟩
      · exact hother other hmem hnone rfl
      · obtain ⟨c, hc⟩ := hfile
        rw [hc] at hdir
        cases hdir
    obtain ⟨cur', hok, ⟨c, hc⟩, hmade⟩ :=
      checkAndCreateFile_ok capitalize (by simp [docsPath]) hnow habove
    refine ⟨cur', hok, ?_, ?_⟩
    · intro q
      rcases hmade q with hsame | ⟨hnone, rfl | hdir⟩
      · rcases h q with hsame' | ⟨hnone, other, hmem, hmiss, hcase⟩
        · exact .inl (by rw [hsame, hsame'])
        · refine .inr ⟨hnone, other, hmem, hmiss, ?_⟩
          unfold DirTree.IsFileAt
          rw [hsame]
          exact hcase
      · exact .inr ⟨hmissing, path, hpath, hmissing, .inl ⟨rfl, c, hc⟩⟩
      · by_cases hq : t.node q = none
        · exact .inr ⟨hq, path, hpath, hmissing, .inr hdir⟩
        · -- what was there before is still there
          rcases h q with hsame' | ⟨hnone', -⟩
          · rw [hsame'] at hnone
            exact absurd hnone hq
          · exact absurd hnone' hq
    · rw [hc]
      exact Option.some_ne_none _
  · refine ⟨cur, ?_, h, hnow⟩
    unfold checkAndCreateFile
    rw [if_neg (by simpa using hnow)]

/-- **All pages.** -/
theorem createPages_ok {pages : List Page} {t : Docs} (hclear : Clear t pages) {todo : List Page}
    (htodo : todo ⊆ pages) {cur : Docs} (h : CreatedFrom pages t cur) :
    ∃ cur', createPages capitalize cur todo = .ok cur' ∧ CreatedFrom pages t cur' ∧
      Keeps cur cur' ∧ ∀ path ∈ todo, cur'.node (docsPath path) ≠ none := by
  induction todo generalizing cur with
  | nil => exact ⟨cur, rfl, h, Keeps.refl cur, by simp⟩
  | cons path todo ih =>
    rw [List.cons_subset] at htodo
    obtain ⟨cur₁, hok, h₁, hthere⟩ := h.step capitalize hclear htodo.1
    obtain ⟨cur', hok', h', hkeeps, hall⟩ := ih htodo.2 h₁
    have hkeeps₁ : Keeps cur cur₁ := by
      have hk := keeps_checkAndCreateFile capitalize cur (docsPath path)
      rw [hok] at hk
      exact hk
    refine ⟨cur', ?_, h', hkeeps₁.trans hkeeps, ?_⟩
    · rw [createPages, List.foldlM_cons, hok]
      exact hok'
    · intro other hother
      rcases List.mem_cons.mp hother with rfl | hother
      · rw [hkeeps _ hthere]
        exact hthere
      · exact hall other hother

/-! ### The directory `docs` -/

/-- The directory `docs` is made when nothing has its name. -/
theorem ensureDocs_ok (t : Docs) :
    ∃ t₀, ensureDocs t = .ok t₀ ∧ (∀ q, q ≠ ["docs".toList] → t₀.node q = t.node q) ∧
      ∀ q, t₀.IsFileAt q ↔ t.IsFileAt q := by
  unfold ensureDocs
  split
  · next hnone =>
    have hfree : t.node ([] ++ ["docs".toList]) = none := Option.isNone_iff_eq_none.mp hnone
    have hadd : ∀ q, (t.add [] "docs".toList .dir).node q =
        if q = ["docs".toList] then some .dir else t.node q := DirTree.node_add t.root hfree .dir
    refine ⟨t.add [] "docs".toList .dir, ?_, ?_, ?_⟩
    · unfold makedirs DirTree.makeDirs
      rw [hfree]
      rfl
    · intro q hq
      rw [hadd, if_neg hq]
    · intro q
      unfold DirTree.IsFileAt
      rw [hadd]
      split
      · next hq =>
        subst hq
        rw [Option.isNone_iff_eq_none.mp hnone]
        simp
      · rfl
  · exact ⟨t, rfl, fun q _ => rfl, fun q => Iff.rfl⟩

theorem docsPath_ne (path : Page) : docsPath path ≠ ["docs".toList] := by
  intro h
  exact path.ne_nil (List.cons.inj h).2

theorem clear_congr {t t₀ : Docs} (hnode : ∀ q, q ≠ ["docs".toList] → t₀.node q = t.node q)
    (hfile : ∀ q, t₀.IsFileAt q ↔ t.IsFileAt q) (pages : List Page) :
    Clear t₀ pages ↔ Clear t pages := by
  unfold Clear
  simp only [hfile, hnode _ (docsPath_ne _)]

/-! ### When every page is created -/

/-- The run ends, and each page it refers to is created, or stays as it was. -/
def Creates (t : Docs) (nav : List Nav) : Prop :=
  ∃ t', createMarkdownFiles capitalize false t nav = .ok t' ∧ ∀ path ∈ Nav.pagesOf nav,
    (t.node (docsPath path) = none → t'.IsFileAt (docsPath path)) ∧
    (t.node (docsPath path) ≠ none → t'.node (docsPath path) = t.node (docsPath path))

theorem createMarkdownFiles_eq {t t₀ : Docs} (ht₀ : ensureDocs t = .ok t₀) (nav : List Nav) :
    createMarkdownFiles capitalize false t nav =
      nav.foldlM (createSection capitalize false) t₀ := by
  rw [createMarkdownFiles, ht₀]
  rfl

/-- A run that ends has met sections only. -/
theorem isSection_of_ok {nav : List Nav} {t t' : Docs}
    (h : nav.foldlM (createSection capitalize false) t = .ok t') :
    ∀ item ∈ nav, item.IsSection := by
  intro item hitem
  obtain ⟨s₁, s₂, hstep⟩ := exists_step_ok h item hitem
  cases item with
  | page _ => cases hstep
  | titledPage _ _ => trivial
  | titledList _ items =>
    intro inner hinner
    obtain ⟨s₃, s₄, hstep'⟩ := exists_step_ok hstep inner hinner
    cases inner with
    | page _ => cases hstep'
    | titledPage _ _ => trivial
    | titledList _ _ => cases hstep'

/-- **Every page is created** when every item of the navigation is a title with a page or
with a list of titled pages, and no file and no other missing page is in the way of a missing
one. -/
theorem creates_iff (t : Docs) (nav : List Nav) :
    Creates capitalize t nav ↔
      (∀ item ∈ nav, item.IsSection) ∧ Clear t (Nav.pagesOf nav) := by
  obtain ⟨t₀, ht₀, hnode, hfile⟩ := ensureDocs_ok t
  have hkeeps₀ : Keeps t t₀ := by
    intro q hq
    by_cases hdocs : q = ["docs".toList]
    · subst hdocs
      have hsome : ¬ (t.node ["docs".toList]).isNone = true := by simpa using hq
      rw [ensureDocs, if_neg hsome, Except.ok.injEq] at ht₀
      rw [ht₀]
    · exact hnode q hdocs
  unfold Creates
  rw [createMarkdownFiles_eq capitalize ht₀]
  constructor
  · rintro ⟨t', hrun, hcreated⟩
    refine ⟨isSection_of_ok capitalize hrun, ?_⟩
    intro path hpath hmissing q hpre hne
    obtain ⟨c, hc⟩ := (hcreated path hpath).1 hmissing
    -- what is above a file of the final tree is a directory
    have hdir : t'.node q = some .dir :=
      t'.node_of_isPrefix hpre hne (by rw [hc]; exact Option.some_ne_none _)
    constructor
    · rintro ⟨c', hc'⟩
      have hkept :=
        createMarkdownFiles_keeps capitalize t nav q (by rw [hc']; exact Option.some_ne_none _)
      rw [createMarkdownFiles_eq capitalize ht₀, hrun, treeAfter, hdir, hc'] at hkept
      cases hkept
    · rintro other hother hnone rfl
      obtain ⟨c', hc'⟩ := (hcreated other hother).1 hnone
      rw [hdir] at hc'
      cases hc'
  · rintro ⟨hsections, hclear⟩
    rw [foldlM_createSection capitalize hsections]
    have hclear₀ := (clear_congr hnode hfile _).mpr hclear
    have hstart : CreatedFrom (Nav.pagesOf nav) t₀ t₀ := fun q => .inl rfl
    obtain ⟨t', hrun, hfrom, hkeeps, hthere⟩ :=
      createPages_ok capitalize hclear₀ (List.Subset.refl _) hstart
    refine ⟨t', hrun, ?_⟩
    intro path hpath
    constructor
    · intro hmissing
      rw [← hnode _ (docsPath_ne path)] at hmissing
      exact hfrom.isFileAt hclear₀ hpath hmissing (hthere path hpath)
    · intro hsome
      exact (hkeeps₀.trans hkeeps) _ hsome

/-- `word.capitalize()` for a word in ASCII. -/
def asciiCapitalize : Str → Str
  | [] => []
  | c :: s => c.toUpper :: s.map Char.toLower

/-- `index.md`. -/
def indexPage : Page := ⟨["index.md".toList], by simp, by decide⟩

/-- A navigation with one item, the path of a page. -/
theorem not_creates_index : ¬ Creates asciiCapitalize DirTree.empty [.page indexPage] := by
  rintro ⟨t', hrun, -⟩
  obtain ⟨t₀, ht₀, -⟩ := ensureDocs_ok DirTree.empty
  rw [createMarkdownFiles_eq asciiCapitalize ht₀] at hrun
  exact isSection_of_ok asciiCapitalize hrun _ List.mem_cons_self

end Mkdocs
end Dfuser
