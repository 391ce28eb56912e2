import Mathlib.Data.List.MinMax
import Dfuser.Lib.Base64
import Dfuser.Lib.DirTree
import Dfuser.Lib.Lines

/-!
# Directories from a drawing of a tree

`scripts/bash/gen_dirs` reads what `tree` prints and creates the directories and files it
sees there.  It takes a line apart with an expression for bars and dashes in ASCII, where
`tree` draws with box characters: no line matches, so each line, drawing and all, is the
name of an entry of the base directory.

The base directory is the root of a tree without links.  No name has a slash in it, so a
line has none, and `$base_path/$name` is an entry of the base directory, or one of the
directories that are there already.  What `echo -e` makes of backslashes and which
characters are white space to `sed` are parameters; the messages are left out.

## Main definitions

* `Entry`, `Tree` — a directory in which files are told by a dot.
* `listing` — what `tree` prints.
* `createLine`, `createDirsFromTree` — the script.
* `CreatesTree` — from the listing of a tree exactly the tree is created.

## Main results

* `exists_created` — what the line of an entry creates.
* `createsTree_iff` — **only the empty tree is created from its listing.**
-/

namespace Dfuser
namespace GenDirs

/-! ### Trees and their listings -/

/-- An entry of a directory. -/
inductive Entry
  | file (name : Str)
  | dir (name : Str) (entries : List Entry)

def Entry.name : Entry → Str
  | .file name => name
  | .dir name _ => name

mutual

/-- Files have a dot in their names, directories have none, and names are different. -/
def Entry.FollowsRule : Entry → Prop
  | .file name => ValidName name ∧ '.' ∈ name
  | .dir name entries =>
    ValidName name ∧ '.' ∉ name ∧ (entries.map Entry.name).Nodup ∧ Entry.AllFollowRule entries

def Entry.AllFollowRule : List Entry → Prop
  | [] => True
  | e :: es => e.FollowsRule ∧ Entry.AllFollowRule es

end

/-- A directory in which a name is that of a file when it has a dot in it. -/
structure Tree where
  entries : List Entry
  nodup : (entries.map Entry.name).Nodup
  rule : Entry.AllFollowRule entries

/-- What can be at a path. -/
inductive Kind
  | file
  | dir
  deriving DecidableEq, Repr

/-- What is at a path below entries. -/
def kindAt : List Entry → Path → Option Kind
  | _, [] => some .dir
  | entries, n :: p =>
    match entries.find? fun e => e.name = n with
    | none => none
    | some (.file _) => if p = [] then some .file else none
    | some (.dir _ es) => kindAt es p

/-- The connector before a name, and what stands below it. -/
def connector (last : Bool) : Str := if last then "└── ".toList else "├── ".toList

def below (last : Bool) : Str := if last then "    ".toList else "│   ".toList

mutual

/-- The lines of an entry. -/
def drawEntry (indent : Str) (last : Bool) : Entry → List Str
  | .file name => [indent ++ connector last ++ name]
  | .dir name entries =>
    (indent ++ connector last ++ name) :: drawEntries (indent ++ below last) entries

/-- The lines of the entries of a directory. -/
def drawEntries (indent : Str) : List Entry → List Str
  | [] => []
  | e :: es => drawEntry indent es.isEmpty e ++ drawEntries indent es

end

/-- What `tree` prints. -/
def listing (tree : Tree) : Str := unlines (".".toList :: drawEntries [] tree.entries)

/-! ### The script -/

variable (interpret : Str → Str) (isSpace : Char → Bool)

/-- `^(\|\s)+\|--\s(.*)`: the bar and the white space matched last, and what is left. -/
def bars? : Str → Option (Str × Str)
  | '|' :: c :: s =>
    if isSpace c then
      (bars? s).or
        (match s with
        | '|' :: '-' :: '-' :: d :: rest => if isSpace d then some (['|', c], rest) else none
        | _ => none)
    else none
  | _ => none

/-- A filter on the lines of an output. -/
def filterLines (f : Str → Str) (output : Str) : Str := unlines ((textLines output).map f)

/-- `$(echo "$line" | sed … | wc -c)`. -/
def level (line : Str) : ℕ :=
  (utf8 (filterLines (fun l => ((bars? isSpace l).map Prod.fst).getD l)
    (echo interpret [line]))).length

/-- `$(echo "$line" | sed …)`. -/
def nameOf (line : Str) : Str :=
  chomp (filterLines (fun l => ((bars? isSpace l).map Prod.snd).getD l) (echo interpret [line]))

/-- `-e "$base_path/$name"`. -/
def isThere (t : DirTree Str) (name : Str) : Bool :=
  name = [] ∨ name = ".".toList ∨ name = "..".toList ∨ (t.node [name]).isSome = true

/-- One line of the listing.  The template is empty, and so is what `sed` makes of it. -/
def createLine (t : DirTree Str) (line : Str) : DirTree Str :=
  if level interpret isSpace line = 0 then t
  else
    let name := nameOf interpret isSpace line
    if isThere t name then t
    else if '.' ∈ name then t.add [] name (.file "\n".toList)
    else t.add [] name .dir

/-- `read -r`: the blanks around a line go. -/
def readRaw (line : Str) : Str := (line.dropWhile isBlank).rdropWhile isBlank

/-- `$(echo "$tree_output" | tr '\r' '\n')`, line by line. -/
def outputLines (treeOutput : Str) : List Str :=
  (chomp ((echo interpret [treeOutput]).map fun c => if c = '\r' then '\n' else c)).splitOn '\n'

/-- `create_dirs_from_tree`. -/
def createDirsFromTree (t : DirTree Str) (treeOutput : Str) : DirTree Str :=
  (outputLines interpret treeOutput).foldl
    (fun t line => createLine interpret isSpace t (readRaw line)) t

/-- The script on a file with this content. -/
def genDirs (t : DirTree Str) (content : Str) : DirTree Str :=
  createDirsFromTree interpret isSpace t (chomp content)

/-- The kind of a node. -/
def kindOf : Node Str → Kind
  | .file _ => .file
  | .dir => .dir

/-- In an empty directory exactly the tree is created from its listing. -/
def CreatesTree (tree : Tree) : Prop :=
  ∀ p, ((genDirs interpret isSpace DirTree.empty (listing tree)).node p).map kindOf =
    kindAt tree.entries p

/-! ### The lines of an entry -/

/-- The box characters that connect. -/
def isBox (c : Char) : Bool := c = '├' ∨ c = '└'

/-- What comes before the first end of a line. -/
def firstPiece (name : Str) : Str := name.takeWhile fun c => decide (c ≠ '\n' ∧ c ≠ '\r')

theorem connector_eq (last : Bool) :
    ∃ c s, connector last = c :: s ∧ isBox c = true ∧ isBlank c = false ∧ c ≠ '-' ∧ c ≠ '.' ∧
      c ≠ '|' ∧ '\n' ∉ c :: s ∧ '\r' ∉ c :: s := by
  cases last with
  | true => exact ⟨'└', "── ".toList, rfl, by decide⟩
  | false => exact ⟨'├', "── ".toList, rfl, by decide⟩

/-- Each entry of the directory has a line of its own. -/
theorem exists_line {entries : List Entry} {e : Entry} (he : e ∈ entries) :
    ∃ last, connector last ++ e.name ∈ drawEntries [] entries := by
  induction entries with
  | nil => cases he
  | cons e' entries ih =>
    rw [drawEntries]
    rcases List.mem_cons.mp he with rfl | he
    · refine ⟨entries.isEmpty, List.mem_append_left _ ?_⟩
      cases e with
      | file name => simp [drawEntry, Entry.name]
      | dir name es => simp [drawEntry, Entry.name]
    · obtain ⟨last, hlast⟩ := ih he
      exact ⟨last, List.mem_append_right _ hlast⟩

/-- A carriage return is read as a newline. -/
def crToNewline (c : Char) : Char := if c = '\r' then '\n' else c

theorem map_crToNewline {s : Str} (h : '\r' ∉ s) : s.map crToNewline = s := by
  have hsame : ∀ c ∈ s, crToNewline c = c := by
    intro c hc
    apply if_neg
    rintro rfl
    exact h hc
  rw [List.map_congr_left hsame, List.map_id']

/-- The lines that are read are the lines of the listing. -/
theorem outputLines_listing (tree : Tree) :
    outputLines interpret (chomp (listing tree)) =
      (chomp ((listing tree).map crToNewline)).splitOn '\n' := by
  have hword : isEchoOption (chomp (listing tree)) = false := by
    have hlisting : ∃ rest, listing tree = '.' :: rest := ⟨_, rfl⟩
    obtain ⟨rest, hrest⟩ := hlisting
    have hpre := prefix_chomp (listing tree)
    rw [hrest] at hpre ⊢
    rcases List.prefix_cons_iff.mp hpre with hnil | ⟨t, ht, -⟩
    · rw [hnil]
      rfl
    · rw [ht]
      rfl
  have hnewline : crToNewline '\n' = '\n' := by decide
  change (chomp ((echo interpret [chomp (listing tree)]).map crToNewline)).splitOn '\n' = _
  rw [echo_singleton hword, List.map_append, List.map_singleton, hnewline, chomp_concat,
    chomp_map_chomp hnewline]

/-- A line is cut at its first end. -/
theorem firstPiece_mem_splitOn {start : Str} (hnewline : '\n' ∉ start) (hcr : '\r' ∉ start)
    (name : Str) : start ++ firstPiece name ∈ ((start ++ name).map crToNewline).splitOn '\n' := by
  have hpiece : ∀ c ∈ firstPiece name, c ≠ '\n' ∧ c ≠ '\r' := by
    intro c hc
    simpa using List.mem_takeWhile_imp hc
  have hcut : name = firstPiece name ++ name.dropWhile fun c => decide (c ≠ '\n' ∧ c ≠ '\r') :=
    List.takeWhile_append_dropWhile.symm
  have hno : '\n' ∉ start ++ firstPiece name := by
    rw [List.mem_append, not_or]
    exact ⟨hnewline, fun hc => (hpiece _ hc).1 rfl⟩
  have hsame : (start ++ firstPiece name).map crToNewline = start ++ firstPiece name := by
    apply map_crToNewline
    rw [List.mem_append, not_or]
    exact ⟨hcr, fun hc => (hpiece _ hc).2 rfl⟩
  have hmap : (start ++ name).map crToNewline = start ++ firstPiece name ++
      (name.dropWhile fun c => decide (c ≠ '\n' ∧ c ≠ '\r')).map crToNewline := by
    conv_lhs => rw [hcut]
    rw [← List.append_assoc, List.map_append, hsame]
  rw [hmap]
  cases hrest : name.dropWhile fun c => decide (c ≠ '\n' ∧ c ≠ '\r') with
  | nil =>
    rw [List.map_nil, List.append_nil, List.splitOn_eq_singleton hno]
    exact List.mem_cons_self
  | cons c rest =>
    have hc : crToNewline c = '\n' := by
      have hstop := List.head?_dropWhile_not (fun c => decide (c ≠ '\n' ∧ c ≠ '\r')) name
      rw [hrest] at hstop
      by_cases hcr : c = '\r'
      · rw [hcr]
        decide
      · have hnl : c = '\n' := by
          by_contra hne
          simp [hne, hcr] at hstop
        rw [hnl]
        decide
    rw [List.map_cons, hc, List.splitOn_append_cons_self_of_not_mem hno]
    exact List.mem_cons_self

/-- The start of an entry's line is a line that is read. -/
theorem mem_outputLines {tree : Tree} {e : Entry} (he : e ∈ tree.entries) :
    ∃ last, connector last ++ firstPiece e.name ∈ outputLines interpret (chomp (listing tree)) := by
  obtain ⟨last, hline⟩ := exists_line he
  obtain ⟨c, s, hconnector, -, -, -, -, -, hnewline, hcr⟩ := connector_eq last
  refine ⟨last, ?_⟩
  rw [outputLines_listing, hconnector]
  apply mem_splitOn_chomp (by simp)
  have hmem : connector last ++ e.name ∈ ".".toList :: drawEntries [] tree.entries :=
    List.mem_cons_of_mem _ hline
  rw [hconnector] at hmem
  exact splitOn_subset_unlines (by decide) hmem (firstPiece_mem_splitOn hnewline hcr e.name)

/-! ### What a line creates -/

/-- A line that starts with no blank loses the blanks at its end. -/
theorem readRaw_cons {c : Char} (hblank : isBlank c = false) (s : Str) :
    ∃ rest, readRaw (c :: s) = c :: rest ∧ rest <+: s := by
  have hdrop : (c :: s).dropWhile isBlank = c :: s :=
    List.dropWhile_cons_of_neg (by simp [hblank])
  rw [readRaw, hdrop]
  rcases List.prefix_cons_iff.mp (List.rdropWhile_prefix isBlank (c :: s)) with
    hnil | ⟨rest, hrest, hpre⟩
  · rw [List.rdropWhile_eq_nil_iff] at hnil
    rw [hnil c List.mem_cons_self] at hblank
    cases hblank
  · exact ⟨rest, hrest, hpre⟩

/-- What `sed` leaves of a line that starts with no bar. -/
theorem filterLines_echo {w : Str} (hoption : isEchoOption w = false) (hnewline : '\n' ∉ w)
    {f : Str → Str} (hf : f w = w) : filterLines f (echo interpret [w]) = w ++ ['\n'] := by
  have hunlines : w ++ ['\n'] = unlines [w] := by simp [unlines]
  rw [echo_singleton hoption, filterLines, hunlines, textLines_unlines (by simpa using hnewline),
    List.map_singleton, hf]

theorem bars?_of_ne {c : Char} (hc : c ≠ '|') (s : Str) : bars? isSpace (c :: s) = none := by
  unfold bars?
  split
  · next heq => exact absurd (List.cons.inj heq).1 hc
  · rfl

/-- **A line that starts with a box character is the name of an entry.** -/
theorem createLine_cons (t : DirTree Str) {c : Char} {s : Str} (hdash : c ≠ '-') (hdot : c ≠ '.')
    (hbar : c ≠ '|') (hnewline : '\n' ∉ c :: s) :
    ((createLine interpret isSpace t (c :: s)).node [c :: s]) ≠ none := by
  have hoption : isEchoOption (c :: s) = false := by
    unfold isEchoOption
    split
    · next heq => exact absurd (List.cons.inj heq).1 hdash
    · rfl
  have hlevel : level interpret isSpace (c :: s) ≠ 0 := by
    rw [level, filterLines_echo interpret hoption hnewline (by rw [bars?_of_ne isSpace hbar]; rfl),
      utf8, List.flatMap_append, List.length_append]
    have hlast : (['\n'].flatMap String.utf8EncodeChar).length = 1 := by decide
    omega
  have hname : nameOf interpret isSpace (c :: s) = c :: s := by
    rw [nameOf, filterLines_echo interpret hoption hnewline (by rw [bars?_of_ne isSpace hbar]; rfl),
      chomp_concat, chomp_of_notMem hnewline]
  unfold createLine
  rw [if_neg hlevel, hname]
  dsimp only
  split
  · next hthere =>
    -- the name is none of those of the directory itself and of its parent
    simp only [isThere, Bool.decide_or, Bool.or_eq_true, decide_eq_true_eq] at hthere
    rcases hthere with hnil | hself | hparent | hsome
    · cases hnil
    · exact absurd (List.cons.inj hself).1 hdot
    · exact absurd (List.cons.inj hparent).1 hdot
    · exact Option.isSome_iff_ne_none.mp hsome
  · next hthere =>
    have hfree : t.node ([] ++ [c :: s]) = none := by
      by_contra hne
      apply hthere
      simp only [isThere, Bool.decide_or, Bool.or_eq_true, decide_eq_true_eq]
      exact .inr (.inr (.inr (Option.isSome_iff_ne_none.mpr hne)))
    have hadded : ∀ o, (t.add [] (c :: s) o).node [c :: s] = some o :=
      fun o => (DirTree.node_add t.root hfree o [c :: s]).trans (if_pos rfl)
    split
    · rw [hadded]
      exact Option.some_ne_none _
    · rw [hadded]
      exact Option.some_ne_none _

/-- The line of the root names the directory itself. -/
theorem createLine_dot (t : DirTree Str) : createLine interpret isSpace t ".".toList = t := by
  have hname : nameOf interpret isSpace ".".toList = ".".toList := by
    rw [nameOf, filterLines_echo interpret (by decide) (by decide) rfl]
    rfl
  unfold createLine
  split
  · rfl
  · rw [hname]
    exact if_pos rfl

open DirTree (Keeps)

theorem createLine_keeps (t : DirTree Str) (line : Str) :
    Keeps t (createLine interpret isSpace t line) := by
  unfold createLine
  split
  · exact Keeps.refl t
  · dsimp only
    split
    · exact Keeps.refl t
    · split
      · exact t.keeps_add _ _ _
      · exact t.keeps_add _ _ _

/-- What a line has created is there in the end. -/
theorem foldl_createLine_ne_none {lines : List Str} {line : Str} (hline : line ∈ lines) {p : Path}
    (hp : ∀ t : DirTree Str, (createLine interpret isSpace t (readRaw line)).node p ≠ none)
    (t : DirTree Str) :
    (lines.foldl (fun t line => createLine interpret isSpace t (readRaw line)) t).node p
      ≠ none := by
  have hkeeps : ∀ (ls : List Str) (t : DirTree Str),
      Keeps t (ls.foldl (fun t line => createLine interpret isSpace t (readRaw line)) t) := by
    intro ls
    induction ls with
    | nil => exact Keeps.refl
    | cons l ls ih =>
      intro t
      exact (createLine_keeps interpret isSpace t _).trans (ih _)
  induction lines generalizing t with
  | nil => cases hline
  | cons l lines ih =>
    rw [List.foldl_cons]
    rcases List.mem_cons.mp hline with rfl | hline
    · rw [hkeeps lines _ p (hp t)]
      exact hp t
    · exact ih hline _

theorem countP_isBox_readRaw (s : Str) : (readRaw s).countP isBox = s.countP isBox := by
  have hblank : ∀ c, isBlank c = true → isBox c = false := by
    intro c hc
    simp only [isBlank, decide_eq_true_eq] at hc
    rcases hc with rfl | rfl | rfl <;> decide
  have hdrop : ∀ s : Str, (s.dropWhile isBlank).countP isBox = s.countP isBox := by
    intro s
    induction s with
    | nil => rfl
    | cons c s ih =>
      by_cases hc : isBlank c = true
      · rw [List.dropWhile_cons_of_pos hc, ih, List.countP_cons_of_neg (by simp [hblank c hc])]
      · rw [List.dropWhile_cons_of_neg hc]
  have hrdrop : ∀ s : Str, (s.rdropWhile isBlank).countP isBox = s.countP isBox := by
    intro s
    rw [List.rdropWhile, List.countP_reverse, hdrop, List.countP_reverse]
  rw [readRaw, hrdrop, hdrop]

/-- **What the line of an entry creates**: an entry of the base directory, with more box
characters in its name than there are in the first piece of the name drawn. -/
theorem exists_created {tree : Tree} {e : Entry} (he : e ∈ tree.entries) :
    ∃ n, (genDirs interpret isSpace DirTree.empty (listing tree)).node [n] ≠ none ∧
      firstPiece n = n ∧ (firstPiece e.name).countP isBox < n.countP isBox := by
  obtain ⟨last, hmem⟩ := mem_outputLines interpret he
  obtain ⟨c, s, hconnector, hbox, hblank, hdash, hdot, hbar, hnewline, hcr⟩ := connector_eq last
  rw [hconnector, List.cons_append] at hmem
  have hpiece : ∀ d ∈ firstPiece e.name, d ≠ '\n' ∧ d ≠ '\r' := by
    intro d hd
    simpa using List.mem_takeWhile_imp hd
  obtain ⟨rest, hread, hpre⟩ := readRaw_cons hblank (s ++ firstPiece e.name)
  have hclean : ∀ d ∈ c :: rest, d ≠ '\n' ∧ d ≠ '\r' := by
    intro d hd
    have hd' : d ∈ (c :: s) ++ firstPiece e.name := by
      rw [List.cons_append]
      rcases List.mem_cons.mp hd with rfl | hd
      · exact List.mem_cons_self
      · exact List.mem_cons_of_mem _ (hpre.subset hd)
    rcases List.mem_append.mp hd' with hd' | hd'
    · constructor
      · rintro rfl
        exact hnewline hd'
      · rintro rfl
        exact hcr hd'
    · exact hpiece d hd'
  refine ⟨c :: rest, ?_, ?_, ?_⟩
  · unfold genDirs createDirsFromTree
    apply foldl_createLine_ne_none interpret isSpace hmem
    intro t
    rw [hread]
    exact createLine_cons interpret isSpace t hdash hdot hbar fun hd => (hclean _ hd).1 rfl
  · apply List.takeWhile_eq_self_iff.mpr
    intro d hd
    exact decide_eq_true (hclean d hd)
  · have hcount := countP_isBox_readRaw (c :: (s ++ firstPiece e.name))
    rw [hread, List.countP_cons_of_pos hbox (l := s ++ firstPiece e.name),
      List.countP_append] at hcount
    omega

/-! ### When the tree is created -/

/-- What is at a name of the directory is an entry with this name. -/
theorem exists_of_kindAt {entries : List Entry} {n : Str} (h : kindAt entries [n] ≠ none) :
    ∃ e ∈ entries, e.name = n := by
  rw [kindAt] at h
  cases hfind : entries.find? fun e => e.name = n with
  | none =>
    rw [hfind] at h
    exact absurd rfl h
  | some e => exact ⟨e, List.mem_of_find?_eq_some hfind, by simpa using List.find?_some hfind⟩

/-- **Only the empty tree is created from its listing.** -/
theorem createsTree_iff (tree : Tree) :
    CreatesTree interpret isSpace tree ↔ tree.entries = [] := by
  constructor
  · intro hcreates
    by_contra hne
    -- an entry with the most box characters in the first piece of its name
    obtain ⟨e, he⟩ := Option.ne_none_iff_exists'.mp fun hnone =>
      hne ((List.argmax_eq_none (f := fun e : Entry => (firstPiece e.name).countP isBox)).mp hnone)
    obtain ⟨n, hn, hpiece, hlt⟩ := exists_created interpret isSpace (List.argmax_mem he)
    have hkind : kindAt tree.entries [n] ≠ none := by
      rw [← hcreates [n]]
      exact fun hnone => hn (Option.map_eq_none_iff.mp hnone)
    obtain ⟨e', he', rfl⟩ := exists_of_kindAt hkind
    have hle := List.le_of_mem_argmax he' he
    rw [hpiece] at hle
    omega
  · intro hempty p
    have hlines : outputLines interpret (chomp (listing tree)) = [".".toList] := by
      rw [outputLines_listing, listing, hempty]
      rfl
    rw [genDirs, createDirsFromTree, hlines, hempty, List.foldl_cons, List.foldl_nil]
    have hdot : readRaw ".".toList = ".".toList := by decide
    rw [hdot, createLine_dot, DirTree.node_empty]
    cases p with
    | nil => rfl
    | cons n p => rfl

/-- One directory, without anything in it. -/
def oneDir : Tree where
  entries := [.dir "d".toList []]
  nodup := by decide
  rule := ⟨⟨by decide, by decide, by decide, trivial⟩, trivial⟩

/-- White space of the C locale. -/
def isSpaceC (c : Char) : Bool := c = ' ' ∨ (9 ≤ c.toNat ∧ c.toNat ≤ 13)

/-- What is created has the connector in its name. -/
theorem not_createsTree_oneDir : ¬ CreatesTree id isSpaceC oneDir := by
  intro hcreates
  have hentry : Entry.dir "d".toList [] ∈ oneDir.entries := List.mem_cons_self
  obtain ⟨n, hn, -, hlt⟩ := exists_created id isSpaceC hentry
  have hkind : kindAt oneDir.entries [n] ≠ none := by
    rw [← hcreates [n]]
    exact fun hnone => hn (Option.map_eq_none_iff.mp hnone)
  obtain ⟨e, he, rfl⟩ := exists_of_kindAt hkind
  obtain rfl := List.mem_singleton.mp he
  revert hlt
  decide

end GenDirs
end Dfuser
