import Dfuser.Lib.Lines
import Dfuser.Lib.Regex

/-!
# Pages by their address

`scripts/notion.sh` takes the address of a page, ending in a title, a hyphen, the id of the
page and a query, and asks for the children of the page.  The id is what `sed` finds between
the last slash and `pvs`, without the first field between hyphens.

In the expression for `sed` the question mark has a backslash before it, and so it makes the
group optional and does not stand for the question mark of the query, which is left in the
group.  The variables are not quoted either.

## Main definitions

* `parseIdFromUrl`, `requested` — the program.
* `PageUrl` — the address of a page.
* `ReturnsId` — the id comes back, and the children of the page are asked for.
* `Unmatched` — there is no file that the address stands for as a pattern.

## Main results

* `parseIdFromUrl_eq` — what comes back.
* `not_returnsId` — **the id never comes back.**
-/

namespace Dfuser
namespace Notion

/-! ### The program -/

/-- `.*\/\([^\/]*\)\?pvs.*` -/
def idPattern : Grouped Char where
  before := .seq (.star true (.char fun _ => true)) (.char fun c => c = '/')
  group := .star true (.char fun c => c ≠ '/')
  optional := true
  after := Regex.word "pvs".toList (.star true (.char fun _ => true))

/-- `cut -d'-' -f2-` on a line; one without a hyphen is left as it is. -/
def cutFields (line : Str) : Str :=
  if '-' ∈ line then (line.dropWhile (· ≠ '-')).tail else line

variable (interpret : Str → Str) (fs : FileSystem) (cwd : Path)

/-- What `parse_id_from_url` prints for its argument. -/
def parseIdFromUrl (url : Str) : Str :=
  let echoed := textLines (echo interpret (expandWords fs cwd url))
  let id := chomp (unlines (echoed.filterMap idPattern.replace))
  let id := chomp (unlines ((textLines (id ++ ['\n'])).map cutFields))
  echo interpret (expandWords fs cwd id)

/-- What `is_url` prints. -/
def isUrl (url : Str) : Str :=
  if "http://".toList <+: url ∨ "https://".toList <+: url then "true\n".toList else "false\n".toList

/-- The address that `download_files` asks for. -/
def blocksUrl (pageId : Str) : Str :=
  "https://api.notion.com/v1/blocks/".toList ++ pageId ++ "/children?page_size=100".toList

/-- The first word of an expansion, as an argument of a function. -/
def argument (s : Str) : Str := (expandWords fs cwd s).headD []

/-- What `notion` has `curl` ask for, given the address of a page. -/
def requested (url : Str) : List Str :=
  let id := chomp (parseIdFromUrl interpret fs cwd (argument fs cwd url))
  if chomp (isUrl (argument fs cwd url)) = "true".toList then
    expandWords fs cwd (blocksUrl (argument fs cwd id))
  else expandWords fs cwd (blocksUrl (argument fs cwd url))

/-! ### Addresses -/

def isHexDigit (c : Char) : Bool := c.isDigit || ('a' ≤ c && c ≤ 'f') || ('A' ≤ c && c ≤ 'F')

/-- The address of a page. -/
structure PageUrl where
  workspace : Str
  slug : Str
  id : Str
  /-- The number in the query. -/
  query : Str
  workspace_plain : workspace.all (fun c => c ≠ '/' && !isBlank c) = true
  slug_ne_nil : slug ≠ []
  slug_plain : slug.all (fun c => c.isAlphanum || c = '-') = true
  id_length : id.length = 32
  id_hex : id.all isHexDigit = true
  query_digits : query.all Char.isDigit = true

namespace PageUrl

variable (u : PageUrl)

/-- The title and the id, with the question mark behind them. -/
def title : Str := u.slug ++ '-' :: (u.id ++ ['?'])

def text : Str :=
  "https://www.notion.so/".toList ++ u.workspace ++ '/' :: (u.title ++ ("pvs=".toList ++ u.query))

end PageUrl

/-- Whatever files there are, the id of the page comes back, and its children are asked
for. -/
def ReturnsId (u : PageUrl) : Prop :=
  ∀ fs cwd, parseIdFromUrl interpret fs cwd u.text = u.id ++ ['\n'] ∧
    requested interpret fs cwd u.text = [blocksUrl u.id]

/-- There is no file in the working directory that is named like an address, or like what
comes back. -/
structure Unmatched (u : PageUrl) : Prop where
  scheme : fs.obj (cwd ++ ["https:".toList]) = none
  names : ∀ n ∈ fs.namesIn cwd, globMatch (cutFields u.title) n = false

/-! ### What is found in an address -/

/-- A run of any characters goes to the end. -/
theorem first_star_any (s : Str) : Regex.first (.star true (.char fun _ => true)) s = some [] := by
  induction s with
  | nil => rw [Regex.first, Regex.results_star_nil, List.head?_cons]
  | cons c s ih =>
    rw [Regex.first] at ih
    rw [Regex.first, Regex.results_star_char, if_pos rfl, if_pos rfl, List.head?_append, ih]
    rfl

/-- What is cut is at the front. -/
theorem suffix_cutFields (slug z : Str) : z <:+ cutFields (slug ++ '-' :: z) := by
  rw [cutFields, if_pos (by simp)]
  induction slug with
  | nil =>
    rw [List.nil_append, List.dropWhile_cons_of_neg (by simp)]
    exact List.suffix_rfl
  | cons c slug ih =>
    rw [List.cons_append]
    by_cases hc : c = '-'
    · rw [List.dropWhile_cons_of_neg (by simpa using hc)]
      exact (List.suffix_cons _ z).trans (List.suffix_append slug _)
    · rw [List.dropWhile_cons_of_pos (by simpa using hc)]
      exact ih

theorem cutFields_subset (line : Str) : cutFields line ⊆ line := by
  rw [cutFields]
  split
  · exact ((List.tail_sublist _).trans (List.dropWhile_sublist _)).subset
  · exact List.Subset.refl line

namespace PageUrl

variable (u : PageUrl)

/-- The characters of a title are no blanks and no slashes. -/
theorem of_mem_title {c : Char} (hc : c ∈ u.title) : isBlank c = false ∧ c ≠ '/' := by
  have hchar : c.isAlphanum = true ∨ c = '-' ∨ isHexDigit c = true ∨ c = '?' := by
    rcases List.mem_append.mp hc with hc | hc
    · have hslug := List.all_eq_true.mp u.slug_plain c hc
      rw [Bool.or_eq_true, decide_eq_true_eq] at hslug
      exact hslug.imp_right .inl
    · rcases List.mem_cons.mp hc with rfl | hc
      · exact .inr (.inl rfl)
      · rcases List.mem_append.mp hc with hc | hc
        · exact .inr (.inr (.inl (List.all_eq_true.mp u.id_hex c hc)))
        · exact .inr (.inr (.inr (List.mem_singleton.mp hc)))
  constructor
  · rcases hchar with hchar | rfl | hchar | rfl
    · exact isBlank_of_kind (by decide) hchar
    · decide
    · exact isBlank_of_kind (by decide) hchar
    · decide
  · rintro rfl
    exact absurd hchar (by decide)

theorem of_mem_text {c : Char} (hc : c ∈ u.text) : isBlank c = false := by
  rcases List.mem_append.mp hc with hc | hc
  · rcases List.mem_append.mp hc with hc | hc
    · have hall : ("https://www.notion.so/".toList.all fun c => !isBlank c) = true := by decide
      simpa using List.all_eq_true.mp hall c hc
    · have hworkspace := List.all_eq_true.mp u.workspace_plain c hc
      rw [Bool.and_eq_true] at hworkspace
      simpa using hworkspace.2
  · rcases List.mem_cons.mp hc with rfl | hc
    · decide
    · rcases List.mem_append.mp hc with hc | hc
      · exact (u.of_mem_title hc).1
      · rcases List.mem_append.mp hc with hc | hc
        · have hall : ("pvs=".toList.all fun c => !isBlank c) = true := by decide
          simpa using List.all_eq_true.mp hall c hc
        · exact isBlank_of_kind (by decide) (List.all_eq_true.mp u.query_digits c hc)

/-- The question mark of the query is in the group. -/
theorem replace_text : idPattern.replace u.text = some u.title := by
  have hp : ∀ c ∈ "vs=".toList ++ u.query, c ≠ 'p' := by
    intro c hc
    rcases List.mem_append.mp hc with hc | hc
    · rintro rfl
      revert hc
      decide
    · rintro rfl
      exact absurd (List.all_eq_true.mp u.query_digits 'p' hc) (by decide)
  have hslash : ∀ c ∈ u.title ++ ('p' :: ("vs=".toList ++ u.query)), c ≠ '/' := by
    intro c hc
    rcases List.mem_append.mp hc with hc | hc
    · exact (u.of_mem_title hc).2
    · rcases List.mem_cons.mp hc with rfl | hc
      · decide
      · rcases List.mem_append.mp hc with hc | hc
        · rintro rfl
          revert hc
          decide
        · rintro rfl
          exact absurd (List.all_eq_true.mp u.query_digits '/' hc) (by decide)
  have hcapture : idPattern.capture u.text = some (u.title, []) := by
    apply Grouped.capture_of_last (c := '/') (u := 'p' :: ("vs=".toList ++ u.query))
    · rfl
    · intro c hc
      exact decide_eq_false (hslash c hc)
    · intro c hc
      exact decide_eq_true (hslash c hc)
    · rw [Regex.first_word_eq_some_iff]
      exact ⟨'=' :: u.query, rfl, first_star_any _⟩
    · intro v hsuf hne
      -- without its first letter the query has no `pvs` in it
      have hv : v <:+ "vs=".toList ++ u.query := (List.suffix_cons_iff.mp hsuf).resolve_left hne
      rw [Regex.first_word, if_neg]
      intro hpre
      exact hp 'p' (hv.subset (hpre.subset (by decide))) rfl
  rw [idPattern.replace_of_capture hcapture, List.append_nil]

/-- The question mark is left behind the id. -/
theorem suffix_cutFields_title : u.id ++ ['?'] <:+ cutFields u.title := suffix_cutFields u.slug _

end PageUrl

/-! ### What comes back -/

/-- A path below a directory `https:`. -/
theorem text_eq (u : PageUrl) : u.text = FileSystem.child "https:".toList
    ("/www.notion.so/".toList ++ u.workspace ++
      '/' :: (u.title ++ ("pvs=".toList ++ u.query))) := by
  have hhost : "https://www.notion.so/".toList =
      "https:".toList ++ '/' :: "/www.notion.so/".toList := by
    decide
  unfold PageUrl.text FileSystem.child
  rw [hhost]
  simp only [List.append_assoc, List.cons_append]

theorem blocksUrl_eq (pageId : Str) : blocksUrl pageId = FileSystem.child "https:".toList
    ("/api.notion.com/v1/blocks/".toList ++ pageId ++ "/children?page_size=100".toList) := by
  have hhost : "https://api.notion.com/v1/blocks/".toList =
      "https:".toList ++ '/' :: "/api.notion.com/v1/blocks/".toList := by
    decide
  unfold blocksUrl FileSystem.child
  rw [hhost]
  simp only [List.append_assoc, List.cons_append]

theorem of_mem_blocksUrl {pageId : Str} (h : ∀ c ∈ pageId, isBlank c = false) {c : Char}
    (hc : c ∈ blocksUrl pageId) : isBlank c = false := by
  unfold blocksUrl at hc
  rw [List.mem_append, List.mem_append] at hc
  rcases hc with (hc | hc) | hc
  · have hall : ("https://api.notion.com/v1/blocks/".toList.all fun c => !isBlank c) = true := by
      decide
    simpa using List.all_eq_true.mp hall c hc
  · exact h c hc
  · have hall : ("/children?page_size=100".toList.all fun c => !isBlank c) = true := by decide
    simpa using List.all_eq_true.mp hall c hc

theorem isEchoOption_of_mem {w : Str} (h : '?' ∈ w) : isEchoOption w = false := by
  unfold isEchoOption
  split
  · next c s =>
    rw [List.all_eq_false]
    exact ⟨'?', (List.mem_cons.mp h).resolve_left (by decide), by decide⟩
  · rfl

section

variable {interpret fs cwd} {u : PageUrl} (h : Unmatched fs cwd u)

include h

/-- The address is one word. -/
theorem expandWords_text : expandWords fs cwd u.text = [u.text] := by
  have hvalid : ValidName "https:".toList := by decide
  apply expandWords_of_glob (by rw [text_eq]; exact FileSystem.child_ne_nil _ _) fun c hc =>
    u.of_mem_text hc
  rw [text_eq]
  exact glob_child_of_missing hvalid h.scheme (by decide) _

/-- What is left of the title is one word. -/
theorem expandWords_cutFields : expandWords fs cwd (cutFields u.title) = [cutFields u.title] := by
  apply expandWords_of_glob
  · intro hnil
    have hsuf := u.suffix_cutFields_title
    rw [hnil, List.suffix_nil] at hsuf
    simp at hsuf
  · exact fun c hc => (u.of_mem_title (cutFields_subset _ hc)).1
  · exact glob_of_no_match (fun hc => (u.of_mem_title (cutFields_subset _ hc)).2 rfl) h.names

/-- **What comes back** is the end of the title, with the id and a question mark. -/
theorem parseIdFromUrl_eq :
    parseIdFromUrl interpret fs cwd u.text = cutFields u.title ++ ['\n'] := by
  have hnewline : ∀ {s : Str}, (∀ c ∈ s, isBlank c = false) → '\n' ∉ s := fun hs hc =>
    absurd (hs _ hc) (by decide)
  have hlines : ∀ {s : Str}, '\n' ∉ s → textLines (s ++ ['\n']) = [s] := by
    intro s hs
    have hunlines : s ++ ['\n'] = unlines [s] := by simp [unlines]
    rw [hunlines, textLines_unlines (by simpa using hs)]
  have hchomp : ∀ {s : Str}, '\n' ∉ s → chomp (unlines [s]) = s := by
    intro s hs
    rw [unlines, List.flatMap_singleton, chomp_concat, chomp_of_notMem hs]
  have htext := hnewline fun c hc => u.of_mem_text hc
  have htitle := hnewline fun c hc => (u.of_mem_title hc).1
  have hcut := hnewline fun c hc => (u.of_mem_title (cutFields_subset _ hc)).1
  have hquestion : '?' ∈ cutFields u.title := u.suffix_cutFields_title.subset (by simp)
  have hecho : echo interpret [u.text] = u.text ++ ['\n'] := echo_singleton rfl
  have hid : ([u.text].filterMap idPattern.replace) = [u.title] := by
    rw [List.filterMap_cons, u.replace_text]
    rfl
  rw [parseIdFromUrl, expandWords_text h, hecho, hlines htext, hid, hchomp htitle, hlines htitle,
    List.map_singleton, hchomp hcut, expandWords_cutFields h,
    echo_singleton (isEchoOption_of_mem hquestion)]

theorem requested_eq : requested interpret fs cwd u.text = [blocksUrl (cutFields u.title)] := by
  have hargument : argument fs cwd u.text = u.text := by
    rw [argument, expandWords_text h]
    rfl
  have hnewline : '\n' ∉ cutFields u.title := fun hc =>
    absurd (u.of_mem_title (cutFields_subset _ hc)).1 (by decide)
  have hargument' : argument fs cwd (cutFields u.title) = cutFields u.title := by
    rw [argument, expandWords_cutFields h]
    rfl
  have hurl : chomp (isUrl u.text) = "true".toList := by
    have hpre : "https://".toList <+: u.text := by
      have hhost : "https://www.notion.so/".toList =
          "https://".toList ++ "www.notion.so/".toList := by
        decide
      unfold PageUrl.text
      rw [hhost, List.append_assoc, List.append_assoc]
      exact List.prefix_append _ _
    rw [isUrl, if_pos (.inr hpre)]
    decide
  have hvalid : ValidName "https:".toList := by decide
  rw [requested, hargument, parseIdFromUrl_eq h, chomp_concat, chomp_of_notMem hnewline,
    if_pos hurl, hargument']
  apply expandWords_of_glob (by rw [blocksUrl_eq]; exact FileSystem.child_ne_nil _ _)
  · exact fun c hc => of_mem_blocksUrl (fun d hd => (u.of_mem_title (cutFields_subset _ hd)).1) hc
  · rw [blocksUrl_eq]
    exact glob_child_of_missing hvalid h.scheme (by decide) _

end

theorem blocksUrl_injective {a b : Str} (h : blocksUrl a = blocksUrl b) : a = b := by
  unfold blocksUrl at h
  exact List.append_cancel_left (List.append_cancel_right h)

/-- What comes back is longer than an id. -/
theorem cutFields_title_ne (u : PageUrl) : cutFields u.title ≠ u.id := by
  intro heq
  have hle := u.suffix_cutFields_title.length_le
  rw [heq, List.length_append] at hle
  simp at hle

theorem unmatched_empty (u : PageUrl) : Unmatched FileSystem.empty [] u :=
  ⟨rfl, fun _ hn => absurd hn List.not_mem_nil⟩

/-- **The id never comes back**, and the children of the page are never asked for, where no
file is named like an address. -/
theorem not_returnsId (u : PageUrl) : ¬ ReturnsId interpret u ∧ ∀ fs cwd, Unmatched fs cwd u →
    parseIdFromUrl interpret fs cwd u.text ≠ u.id ++ ['\n'] ∧
      requested interpret fs cwd u.text ≠ [blocksUrl u.id] := by
  have hne : ∀ fs cwd, Unmatched fs cwd u →
      parseIdFromUrl interpret fs cwd u.text ≠ u.id ++ ['\n'] ∧
        requested interpret fs cwd u.text ≠ [blocksUrl u.id] := by
    intro fs cwd h
    rw [parseIdFromUrl_eq h, requested_eq h]
    constructor
    · exact fun heq => cutFields_title_ne u (List.append_cancel_right heq)
    · exact fun heq => cutFields_title_ne u (blocksUrl_injective (List.singleton_inj.mp heq))
  refine ⟨?_, hne⟩
  intro hreturns
  exact (hne _ _ (unmatched_empty u)).1 (hreturns FileSystem.empty []).1

/-- The address in the comment above the function. -/
def documentedUrl : PageUrl where
  workspace := "cosgroma".toList
  slug := "dbs".toList
  id := "36166cf3565d49af87a4df42a4615a34".toList
  query := "4".toList
  workspace_plain := by decide
  slug_ne_nil := by decide
  slug_plain := by decide
  id_length := by decide
  id_hex := by decide
  query_digits := by decide

/-- The answer that the comment gives does not come back. -/
theorem not_returnsId_documentedUrl : ¬ ReturnsId id documentedUrl := by
  intro hreturns
  have hparse := (hreturns FileSystem.empty []).1
  rw [parseIdFromUrl_eq (unmatched_empty documentedUrl)] at hparse
  exact cutFields_title_ne documentedUrl (List.append_cancel_right hparse)

end Notion
end Dfuser
