import Mathlib.Data.List.Infix
import Mathlib.Data.List.Sort
import Dfuser.Lib.Joined
import Dfuser.Lib.Walks

/-!
# Shell words

What becomes of an unquoted expansion in a shell: it is split at blanks, and each
word is then taken as a pattern of path names.  A word that matches no path stands
for itself.

Patterns have `*`, `?`, bracket expressions with ranges and negation, and `\` as an
escape; names sort by code point, as in the C locale.

## Main definitions

* `fnmatch` — matching one name.
* `glob` — pathname expansion of one word.
* `expandWords` — splitting and pathname expansion.
* `expandAmong` — pathname expansion where the names of a directory are given.

## Main results

* `expandWords_of_literal` — text without blanks and special characters is one word.
* `expandWords_append_cons` — a blank separates words.
* `glob_of_no_match` — a pattern that matches nothing stands for itself.
* `glob_child` — so does one that, in its directory, matches nothing but itself.
* `expandAmong_of_alone` — the same, among given names.
* `globMatch_star_append` — what ends in a plain text is matched by `*` before that text.
-/

namespace Dfuser

/-! ### Patterns -/

/-- A piece of a pattern. -/
inductive PatTok
  | char (c : Char)
  | any
  | star
  /-- One character in one of the ranges, or in none of them. -/
  | set (negated : Bool) (ranges : List (Char × Char))
  deriving DecidableEq, Repr

/-- Where the reading of a pattern is: in the text, among the members of a bracket
expression, or at the end of a range whose start was read last. -/
inductive PatMode
  | text
  | members (negated : Bool) (ranges : List (Char × Char))
  | range (negated : Bool) (a : Char) (ranges : List (Char × Char))

/-- A bracket that has just been opened is closed further on; what stands first in it
does not close it. -/
def closes : Str → Bool
  | '!' :: _ :: s => ']' ∈ s
  | '^' :: _ :: s => ']' ∈ s
  | _ :: s => ']' ∈ s
  | [] => false

/-- The pieces of a pattern. -/
def pattern : PatMode → Str → List PatTok
  | _, [] => []
  | .text, '\\' :: c :: s => .char c :: pattern .text s
  | .text, c :: s =>
    if c = '*' then .star :: pattern .text s
    else if c = '?' then .any :: pattern .text s
    else if c = '[' ∧ closes s then pattern (.members false []) s
    else .char c :: pattern .text s
  | .members negated ranges, '\\' :: c :: s => pattern (.members negated ((c, c) :: ranges)) s
  -- the first member is one whatever it is, `]` included
  | .members negated [], c :: s =>
    if !negated ∧ (c = '!' ∨ c = '^') then pattern (.members true []) s
    else pattern (.members negated [(c, c)]) s
  | .members negated ((a, b) :: ranges), c :: s =>
    if c = ']' then .set negated ((a, b) :: ranges) :: pattern .text s
    else if c = '-' ∧ s.head? ≠ some ']' then pattern (.range negated b ((a, b) :: ranges)) s
    else pattern (.members negated ((c, c) :: (a, b) :: ranges)) s
  | .range negated a ranges, d :: s => pattern (.members negated ((a, d) :: ranges)) s

/-- A piece matches one character. -/
def PatTok.matchesChar (c : Char) : PatTok → Bool
  | .char a => a = c
  | .any => true
  | .star => false
  | .set negated ranges => (ranges.any fun r => r.1 ≤ c ∧ c ≤ r.2) != negated

/-- The pieces match the whole name. -/
def matchToks : List PatTok → Str → Bool
  | [], s => s.isEmpty
  | .star :: ts, s => s.tails.any (matchToks ts)
  | _ :: _, [] => false
  | t :: ts, c :: s => t.matchesChar c && matchToks ts s

/-- `fnmatch`: a pattern matches a name. -/
def fnmatch (pat name : Str) : Bool := matchToks (pattern .text pat) name

/-- A hidden name is matched only by a pattern that starts with a dot. -/
def globMatch (pat name : Str) : Bool :=
  fnmatch pat name && (name.head? != some '.' || pat.head? == some '.')

/-! ### Pathname expansion -/

/-- The characters that make a word a pattern. -/
def isSpecial (c : Char) : Bool := c = '*' ∨ c = '?' ∨ c = '['

/-- The characters at which an expansion is split (`IFS`). -/
def isBlank (c : Char) : Bool := c = ' ' ∨ c = '\t' ∨ c = '\n'

/-- Code-point order. -/
def strLe : Str → Str → Bool
  | [], _ => true
  | _ :: _, [] => false
  | a :: s, b :: t => a < b || (a = b && strLe s t)

/-- Sort texts. -/
def sortTexts (l : List Str) : List Str := l.insertionSort fun a b => strLe a b

/-- The names a pattern stands for in the directory with text `t` (`.` when empty). -/
def globNames (fs : FileSystem) (cwd : Path) (t pat : Str) : List Str :=
  match fs.resolve cwd (if t = [] then dot else t) with
  | none => []
  | some d => if fs.obj d = some .dir then (fs.namesIn d).filter (globMatch pat) else []

/-- The paths that the parts of a word stand for, each text in `acc` being what the
parts before have come to. -/
def globParts (fs : FileSystem) (cwd : Path) : List Str → List Str → List Str
  | acc, [] => acc
  | acc, part :: parts =>
    let next := acc.flatMap fun t =>
      if part.any isSpecial then (globNames fs cwd t part).map (t ++ ·) else [t ++ part]
    globParts fs cwd (if parts = [] then next else next.map (· ++ ['/'])) parts

/-- Pathname expansion of one word. -/
def glob (fs : FileSystem) (cwd : Path) (w : Str) : List Str :=
  if w.any isSpecial then
    -- without a match the word stays as it is, special characters and all
    match (globParts fs cwd [[]] (w.splitOn '/')).filter fun t => (fs.entry cwd t).isSome with
    | [] => [w]
    | ts => sortTexts ts
  else [w]

/-- The words an unquoted expansion comes to. -/
def expandWords (fs : FileSystem) (cwd : Path) (s : Str) : List Str :=
  (fields isBlank s).flatMap (glob fs cwd)

/-- Text that is neither split nor taken as a pattern. -/
def Literal (s : Str) : Prop := ∀ c ∈ s, isBlank c = false ∧ isSpecial c = false

instance (s : Str) : Decidable (Literal s) := List.decidableBAll _ s

/-- There is no blank among characters of a kind that excludes the three. -/
theorem isBlank_of_kind {q : Char → Bool} (hq : [' ', '\t', '\n'].any q = false) {c : Char}
    (hc : q c = true) : isBlank c = false := by
  by_contra hblank
  simp only [isBlank, Bool.not_eq_false, decide_eq_true_eq] at hblank
  rcases hblank with rfl | rfl | rfl
  · simp [hc] at hq
  · simp [hc] at hq
  · simp [hc] at hq

theorem literal_append {s t : Str} : Literal (s ++ t) ↔ Literal s ∧ Literal t := by
  simp only [Literal, List.mem_append]
  constructor
  · intro h
    exact ⟨fun c hc => h c (Or.inl hc), fun c hc => h c (Or.inr hc)⟩
  · rintro ⟨hs, ht⟩ c (hc | hc)
    · exact hs c hc
    · exact ht c hc

theorem newline_notMem_of_literal {s : Str} (h : Literal s) : '\n' ∉ s :=
  fun hc => absurd (h _ hc).1 (by decide)

theorem glob_of_literal {w : Str} (h : Literal w) (fs : FileSystem) (cwd : Path) :
    glob fs cwd w = [w] := by
  rw [glob, if_neg]
  rw [List.any_eq_true]
  rintro ⟨c, hc, hs⟩
  rw [(h c hc).2] at hs
  cases hs

theorem expandWords_of_glob {s : Str} (hne : s ≠ []) (h : ∀ c ∈ s, isBlank c = false)
    {fs : FileSystem} {cwd : Path} (hglob : glob fs cwd s = [s]) : expandWords fs cwd s = [s] := by
  rw [expandWords, fields_eq_singleton hne h, List.flatMap_singleton, hglob]

/-- Words that stand for themselves. -/
theorem expandWords_of_forall {s : Str} {fs : FileSystem} {cwd : Path}
    (h : ∀ w ∈ fields isBlank s, glob fs cwd w = [w]) : expandWords fs cwd s = fields isBlank s :=
  calc expandWords fs cwd s = (fields isBlank s).flatMap fun w => [w] := List.flatMap_congr h
    _ = fields isBlank s := List.flatMap_singleton' _

/-- **Text without blanks and special characters is one word.** -/
theorem expandWords_of_literal {s : Str} (hne : s ≠ []) (h : Literal s) (fs : FileSystem)
    (cwd : Path) : expandWords fs cwd s = [s] :=
  expandWords_of_glob hne (fun c hc => (h c hc).1) (glob_of_literal h fs cwd)

theorem resolve_dot (fs : FileSystem) (cwd d : Path) (h : fs.resolve cwd dot = some d) :
    d = cwd := by
  have hcomps : FileSystem.comps dot = [dot] := by decide
  have hstart : FileSystem.start cwd dot = cwd := rfl
  rw [FileSystem.resolve, if_neg (by decide), hcomps, hstart, FileSystem.maxLinks,
    FileSystem.walk, FileSystem.walkWith, FileSystem.move] at h
  split at h
  · next p hp =>
    split at hp
    · rw [if_pos rfl] at hp
      cases hp
      exact (Option.some.inj h).symm
    · cases hp
  · next hp =>
    split at hp
    · rw [if_pos rfl] at hp
      cases hp
    · cases hp
  · cases h
  · cases h

/-- A pattern that matches no name of the working directory stands for itself. -/
theorem glob_of_no_match {w : Str} (hslash : '/' ∉ w) {fs : FileSystem} {cwd : Path}
    (h : ∀ n ∈ fs.namesIn cwd, globMatch w n = false) : glob fs cwd w = [w] := by
  unfold glob
  split
  · next hspecial =>
    have hnames : globNames fs cwd [] w = [] := by
      unfold globNames
      rw [if_pos rfl]
      split
      · rfl
      · next d hd =>
        rw [resolve_dot fs cwd d hd]
        split
        · exact List.filter_eq_nil_iff.mpr fun n hn => by simp [h n hn]
        · rfl
    rw [List.splitOn_eq_singleton hslash]
    simp [globParts, hspecial, hnames]
  · rfl

/-- A word without a slash stands for itself, or for names in the working directory. -/
theorem mem_glob {w t : Str} (hslash : '/' ∉ w) {fs : FileSystem} {cwd : Path}
    (h : t ∈ glob fs cwd w) : t = w ∨ t ∈ fs.namesIn cwd ∧ globMatch w t = true := by
  unfold glob at h
  split at h
  · next hspecial =>
    rw [List.splitOn_eq_singleton hslash] at h
    split at h
    · exact .inl (List.mem_singleton.mp h)
    · right
      rw [sortTexts, List.mem_insertionSort, List.mem_filter] at h
      have hparts : globParts fs cwd [[]] [w] = globNames fs cwd [] w := by
        simp [globParts, hspecial]
      rw [hparts] at h
      have hname := h.1
      unfold globNames at hname
      rw [if_pos rfl] at hname
      split at hname
      · cases hname
      · next d hd =>
        rw [resolve_dot fs cwd d hd] at hname
        split at hname
        · exact List.mem_filter.mp hname
        · cases hname
  · exact .inl (List.mem_singleton.mp h)

/-- Parts that are no patterns lead to one text. -/
theorem globParts_literal {fs : FileSystem} {cwd : Path} {parts : List Str}
    (h : ∀ part ∈ parts, part.any isSpecial = false) (s part : Str) :
    globParts fs cwd [s] (parts ++ [part]) =
      globParts fs cwd [s ++ parts.flatMap (· ++ ['/'])] [part] := by
  induction parts generalizing s with
  | nil => rw [List.nil_append, List.flatMap_nil, List.append_nil]
  | cons p parts ih =>
    rw [List.forall_mem_cons] at h
    have hstep : globParts fs cwd [s] (p :: (parts ++ [part])) =
        globParts fs cwd [s ++ p ++ ['/']] (parts ++ [part]) := by
      rw [globParts]
      simp [h.1]
    rw [List.cons_append, hstep, ih h.2, List.flatMap_cons, ← List.append_assoc,
      ← List.append_assoc]

theorem flatMap_splitOn (c : Char) (s : Str) : (s.splitOn c).flatMap (· ++ [c]) = s ++ [c] := by
  rw [List.splitOn_eq_splitOnP]
  induction s with
  | nil => rfl
  | cons a s ih =>
    obtain ⟨w, ws, hws⟩ := List.exists_cons_of_ne_nil (List.splitOnP_ne_nil (· == c) s)
    rw [List.splitOnP_cons_eq_if_modifyHead]
    rw [hws] at ih ⊢
    split
    · next ha =>
      rw [List.flatMap_cons, ih, List.nil_append, eq_of_beq ha]
      rfl
    · rw [List.flatMap_cons] at ih
      rw [List.modifyHead_cons, List.flatMap_cons, List.cons_append, List.cons_append, ih]
      rfl

/-- The pieces of a text are made of its characters. -/
theorem mem_of_mem_splitOn {sep c : Char} {s part : Str} (hpart : part ∈ s.splitOn sep)
    (hc : c ∈ part) : c ∈ s ∧ c ≠ sep := by
  have hsep : c ≠ sep := by
    rw [List.splitOn_eq_splitOnP] at hpart
    simpa using of_mem_splitOnP hpart c hc
  have hmem : c ∈ s ++ [sep] := by
    rw [← flatMap_splitOn]
    exact List.mem_flatMap.mpr ⟨part, hpart, List.mem_append_left _ hc⟩
  refine ⟨?_, hsep⟩
  rcases List.mem_append.mp hmem with hmem | hmem
  · exact hmem
  · exact absurd (List.mem_singleton.mp hmem) hsep

theorem any_isSpecial_of_literal {s : Str} (h : Literal s) : s.any isSpecial = false := by
  rw [List.any_eq_false]
  intro c hc
  rw [(h c hc).2]
  exact Bool.false_ne_true

/-- What is left of different names when only one of them can pass. -/
theorem filter_of_self {names : List Str} (hnodup : names.Nodup) {p : Str → Bool} {w : Str}
    (h : ∀ n ∈ names, p n = true → n = w) : names.filter p = [] ∨ names.filter p = [w] := by
  have hself : ∀ n ∈ names.filter p, n = w :=
    fun n hn => h n (List.mem_filter.mp hn).1 (List.mem_filter.mp hn).2
  have hone := hnodup.filter p
  rw [List.eq_replicate_of_mem hself, List.nodup_replicate] at hone
  rw [List.eq_replicate_of_mem hself]
  rcases Nat.le_one_iff_eq_zero_or_eq_one.mp hone with hlength | hlength
  · rw [hlength]
    exact .inl rfl
  · rw [hlength]
    exact .inr rfl

/-- The names that a pattern stands for, if it matches at most itself. -/
theorem globNames_of_self {fs : FileSystem} {cwd d : Path} {t n : Str}
    (hres : fs.resolve cwd t = some d) (h : ∀ m ∈ fs.namesIn d, globMatch n m = true → m = n) :
    globNames fs cwd (t ++ ['/']) n = [] ∨ globNames fs cwd (t ++ ['/']) n = [n] := by
  unfold globNames
  rw [if_neg (by simp)]
  split
  · exact .inl rfl
  · next e he =>
    obtain rfl := FileSystem.resolve_slash hres he
    split
    · exact filter_of_self (FileSystem.nodup_namesIn fs e) h
    · exact .inl rfl

/-- An entry of a directory stands for itself, even as a pattern, if that matches no other
name there. -/
theorem glob_child {fs : FileSystem} {cwd d : Path} {t n : Str} (ht : Literal t) (hslash : '/' ∉ n)
    (hres : fs.resolve cwd t = some d)
    (h : n.any isSpecial = true → ∀ m ∈ fs.namesIn d, globMatch n m = true → m = n) :
    glob fs cwd (FileSystem.child t n) = [FileSystem.child t n] := by
  have hany : (FileSystem.child t n).any isSpecial = n.any isSpecial := by
    rw [FileSystem.child, List.any_append, any_isSpecial_of_literal ht, List.any_cons]
    rfl
  unfold glob
  rw [hany]
  split
  · next hspecial =>
    have hsplit : (FileSystem.child t n).splitOn '/' = t.splitOn '/' ++ [n] := by
      rw [FileSystem.child, List.splitOn_append_cons_self, List.splitOn_eq_singleton hslash]
    have hliteral : ∀ part ∈ t.splitOn '/', part.any isSpecial = false := by
      intro part hpart
      rw [List.any_eq_false]
      intro c hc
      rw [(ht c (mem_of_mem_splitOn hpart hc).1).2]
      exact Bool.false_ne_true
    rw [hsplit, globParts_literal hliteral, List.nil_append, flatMap_splitOn]
    have hparts : globParts fs cwd [t ++ ['/']] [n] =
        (globNames fs cwd (t ++ ['/']) n).map (t ++ ['/'] ++ ·) := by
      simp [globParts, hspecial]
    rcases globNames_of_self hres (h hspecial) with hnames | hnames
    · rw [hparts, hnames]
      rfl
    · rw [hparts, hnames, List.map_singleton, List.append_assoc, List.singleton_append,
        ← FileSystem.child]
      cases hentry : (fs.entry cwd (FileSystem.child t n)).isSome with
      | true =>
        rw [List.filter_cons_of_pos (by exact hentry)]
        rfl
      | false =>
        rw [List.filter_cons_of_neg (by rw [hentry]; exact Bool.false_ne_true)]
        rfl
  · rfl

/-- What the parts of a word come to starts with what the first ones have come to. -/
theorem exists_prefix_of_mem_globParts {fs : FileSystem} {cwd : Path} {t : Str}
    {acc parts : List Str} (h : t ∈ globParts fs cwd acc parts) : ∃ a ∈ acc, a <+: t := by
  induction parts generalizing acc with
  | nil => exact ⟨t, h, List.prefix_rfl⟩
  | cons part parts ih =>
    have hnext : ∀ b ∈ acc.flatMap (fun t =>
        if part.any isSpecial then (globNames fs cwd t part).map (t ++ ·) else [t ++ part]),
        ∃ a ∈ acc, a <+: b := by
      intro b hb
      obtain ⟨a, ha, hb⟩ := List.mem_flatMap.mp hb
      refine ⟨a, ha, ?_⟩
      split at hb
      · obtain ⟨n, -, rfl⟩ := List.mem_map.mp hb
        exact List.prefix_append a n
      · rw [List.mem_singleton.mp hb]
        exact List.prefix_append a part
    rw [globParts] at h
    obtain ⟨b, hb, hbt⟩ := ih h
    split at hb
    · obtain ⟨a, ha, hab⟩ := hnext b hb
      exact ⟨a, ha, hab.trans hbt⟩
    · obtain ⟨b', hb', rfl⟩ := List.mem_map.mp hb
      obtain ⟨a, ha, hab⟩ := hnext b' hb'
      exact ⟨a, ha, (hab.trans (List.prefix_append b' _)).trans hbt⟩

section Missing

variable {fs : FileSystem} {cwd : Path} {a : Str} (ha : ValidName a)
  (hmissing : fs.obj (cwd ++ [a]) = none)

include ha hmissing

/-- A word is the only one that stands for a path below a missing name. -/
theorem eq_of_child_mem_glob {rest w : Str} (h : FileSystem.child a rest ∈ glob fs cwd w) :
    FileSystem.child a rest = w := by
  unfold glob at h
  split at h
  · split at h
    · exact List.mem_singleton.mp h
    · rw [sortTexts, List.mem_insertionSort, List.mem_filter,
        FileSystem.entry_of_missing ha hmissing] at h
      exact absurd h.2 Bool.false_ne_true
  · exact List.mem_singleton.mp h

/-- A path below a missing name stands for itself. -/
theorem glob_child_of_missing (hplain : a.any isSpecial = false) (rest : Str) :
    glob fs cwd (FileSystem.child a rest) = [FileSystem.child a rest] := by
  unfold glob
  split
  · have hsplit : (FileSystem.child a rest).splitOn '/' = a :: rest.splitOn '/' := by
      rw [FileSystem.child, List.splitOn_append_cons_self, List.splitOn_eq_singleton ha.2.1]
      rfl
    have hnil : (globParts fs cwd [[]] ((FileSystem.child a rest).splitOn '/')).filter
        (fun t => (fs.entry cwd t).isSome) = [] := by
      rw [List.filter_eq_nil_iff]
      intro t ht
      rw [hsplit, globParts, if_neg (List.splitOn_ne_nil '/' rest)] at ht
      obtain ⟨b, hb, hbt⟩ := exists_prefix_of_mem_globParts ht
      have hb' : b = a ++ ['/'] := by simpa [hplain] using hb
      obtain ⟨u, rfl⟩ := hbt
      have hchild : b ++ u = FileSystem.child a u := by
        rw [hb', List.append_assoc]
        rfl
      rw [hchild, FileSystem.entry_of_missing ha hmissing]
      exact Bool.false_ne_true
    rw [hnil]
  · rfl

end Missing

/-- A pattern that starts with plain characters matches what starts with them. -/
theorem prefix_of_globMatch {a rest n : Str} (ha : ∀ c ∈ a, isSpecial c = false ∧ c ≠ '\\')
    (h : globMatch (a ++ rest) n = true) : a <+: n := by
  rw [globMatch, Bool.and_eq_true, fnmatch] at h
  obtain ⟨h, -⟩ := h
  induction a generalizing n with
  | nil => exact List.nil_prefix
  | cons c a ih =>
    rw [List.forall_mem_cons] at ha
    have htoks : pattern .text (c :: a ++ rest) = .char c :: pattern .text (a ++ rest) := by
      have hspecial := ha.1.1
      simp only [isSpecial, decide_eq_false_iff_not, not_or] at hspecial
      rw [List.cons_append, pattern]
      · rw [if_neg hspecial.1, if_neg hspecial.2.1, if_neg fun hc => hspecial.2.2 hc.1]
      · intro _ _ hc
        exact absurd hc ha.1.2
    rw [htoks] at h
    cases n with
    | nil => cases h
    | cons d n =>
      have hstep : matchToks (.char c :: pattern .text (a ++ rest)) (d :: n) =
          ((PatTok.char c).matchesChar d && matchToks (pattern .text (a ++ rest)) n) := by
        rw [matchToks]
        exact fun hc => by cases hc
      rw [hstep, Bool.and_eq_true] at h
      have hcd : c = d := of_decide_eq_true h.1
      rw [hcd]
      exact List.cons_prefix_cons.mpr ⟨rfl, ih ha.2 h.2⟩

/-! ### The names of one directory -/

/-- A word stands for a name: as a pattern if it is one, else as itself. -/
def standsFor (w name : Str) : Bool := if w.any isSpecial then globMatch w name else w = name

/-- Pathname expansion of the last part of a path whose other parts are no patterns, among
the names of its directory. -/
def expandAmong (names : List Str) (w : Str) : List Str :=
  if w.any isSpecial then
    match sortTexts (names.filter (globMatch w)) with
    | [] => [w]
    | ns => ns
  else [w]

/-- A name and the names of a directory do not stand for each other. -/
def Alone (names : List Str) (n : Str) : Prop :=
  ∀ m ∈ names, (standsFor n m = true → m = n) ∧ (standsFor m n = true → m = n)

instance (names : List Str) (n : Str) : Decidable (Alone names n) := List.decidableBAll _ names

theorem expandAmong_ne_nil (names : List Str) (w : Str) : expandAmong names w ≠ [] := by
  unfold expandAmong
  split
  · split
    · exact List.cons_ne_nil w []
    · next hne => exact fun hnil => hne hnil
  · exact List.cons_ne_nil w []

theorem mem_expandAmong {names : List Str} {w n : Str} (h : n ∈ expandAmong names w) :
    n = w ∨ n ∈ names ∧ standsFor w n = true := by
  unfold expandAmong at h
  split at h
  · next hspecial =>
    split at h
    · exact .inl (List.mem_singleton.mp h)
    · right
      rw [sortTexts, List.mem_insertionSort, List.mem_filter] at h
      rw [standsFor, if_pos hspecial]
      exact h
  · exact .inl (List.mem_singleton.mp h)

/-- A word that stands for no other name stands for itself. -/
theorem expandAmong_of_alone {names : List Str} (hnodup : names.Nodup) {w : Str}
    (h : ∀ n ∈ names, standsFor w n = true → n = w) : expandAmong names w = [w] := by
  unfold expandAmong
  split
  · next hspecial =>
    have hself : ∀ n ∈ names, globMatch w n = true → n = w := by
      intro n hn hmatch
      exact h n hn (by rw [standsFor, if_pos hspecial, hmatch])
    rcases filter_of_self hnodup hself with hfilter | hfilter
    · rw [hfilter]
      rfl
    · rw [hfilter]
      rfl
  · rfl

/-- What ends in a plain text is matched by `*` before that text, unless it is hidden. -/
theorem globMatch_star_append {ending s : Str} (h : fnmatch ending ending = true)
    (hhead : (s ++ ending).head? ≠ some '.') : globMatch ('*' :: ending) (s ++ ending) = true := by
  have htoks : pattern .text ('*' :: ending) = .star :: pattern .text ending := by
    rw [pattern]
    · rw [if_pos rfl]
    · intro _ _ hc
      cases hc
  rw [globMatch, fnmatch, htoks, matchToks, Bool.and_eq_true, Bool.or_eq_true]
  refine ⟨List.any_eq_true.mpr ⟨ending, ?_, h⟩, .inl (bne_iff_ne.mpr hhead)⟩
  exact (List.mem_tails _ _).mpr (List.suffix_append s ending)

theorem globNames_empty (dir : Path) (t pat : Str) : globNames FileSystem.empty dir t pat = [] := by
  unfold globNames
  split
  · rfl
  · next d _ =>
    have hnone : FileSystem.empty.namesIn d = [] := rfl
    rw [hnone]
    exact ite_self _

/-- Without files a pattern among the parts leads nowhere. -/
theorem globParts_empty (dir : Path) {acc parts : List Str}
    (h : acc = [] ∨ ∃ part ∈ parts, part.any isSpecial = true) :
    globParts FileSystem.empty dir acc parts = [] := by
  induction parts generalizing acc with
  | nil => simpa [globParts] using h
  | cons part parts ih =>
    rw [globParts]
    apply ih
    by_cases hpart : part.any isSpecial = true
    · left
      have hnext : (acc.flatMap fun t => if part.any isSpecial then
          (globNames FileSystem.empty dir t part).map (t ++ ·) else [t ++ part]) = [] := by
        rw [List.flatMap_eq_nil_iff]
        intro t _
        rw [if_pos hpart, globNames_empty, List.map_nil]
      rw [hnext, List.map_nil, ite_self]
    · rcases h with rfl | ⟨part', hmem, hspecial⟩
      · left
        simp
      · right
        rcases List.mem_cons.mp hmem with rfl | hmem
        · exact absurd hspecial hpart
        · exact ⟨part', hmem, hspecial⟩

/-- Without files every word stands for itself. -/
theorem glob_empty (dir : Path) (w : Str) : glob FileSystem.empty dir w = [w] := by
  unfold glob
  split
  · next hspecial =>
    obtain ⟨c, hc, hcs⟩ := List.any_eq_true.mp hspecial
    have hslash : c ≠ '/' := by
      rintro rfl
      exact absurd hcs (by decide)
    obtain ⟨part, hpart, hmem⟩ := Joined.exists_mem_splitOn hslash hc
    rw [globParts_empty dir (.inr ⟨part, hpart, List.any_eq_true.mpr ⟨c, hmem, hcs⟩⟩)]
    rfl
  · rfl

@[simp] theorem expandWords_nil (fs : FileSystem) (cwd : Path) : expandWords fs cwd [] = [] := by
  rw [expandWords, fields_nil]
  rfl

/-- A blank separates words. -/
theorem expandWords_append_cons {c : Char} (hc : isBlank c = true) (fs : FileSystem) (cwd : Path)
    (s t : Str) :
    expandWords fs cwd (s ++ c :: t) = expandWords fs cwd s ++ expandWords fs cwd t := by
  rw [expandWords, fields_append_cons hc, List.flatMap_append]
  rfl

end Dfuser
