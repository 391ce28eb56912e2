import Mathlib.Data.List.DropRight
import Dfuser.Lib.Coreutils

/-!
# Lines that are typed, printed and sourced

What a shell does to lines of text: `read` takes a line apart that was typed, `echo`
prints words on one, and `source` executes the lines of a file.

Without `-r` a backslash is an escape to `read`, and at the end of a line it takes the
next line too.  To `source`, a line that assigns a plain or a quoted text to a variable
is an assignment; what a shell does from any other line on is left open, as a parameter,
and so is what `echo -e` makes of backslashes.

With `extglob` set, a word may also be an extended pattern, as `+(a|b)` is; what that
stands for is left open too.

## Main definitions

* `Line`, `read` — lines that are typed, and the value that `read` gives a variable.
* `echo` — what is printed.
* `assignment?`, `source` — the variables after the lines of a file.
* `expandWordsExtended` — an unquoted expansion with `extglob` set.

## Main results

* `read_cons`, `Line.value_eq` — a line without blanks around it and without backslashes
  is its own value.
* `echo_of_head` — words that are no options are printed with one blank in between.
* `assignment?_of_isBare`, `assignment?_of_isQuotable` — **which texts come back from an
  assignment**.
* `mem_splitOn_chomp` — newlines at the end make no line.
-/

namespace Dfuser

/-! ### Typed lines -/

/-- A line as it is typed.  Texts of a shell have no null character. -/
structure Line where
  text : Str
  newline_notMem : '\n' ∉ text
  null_notMem : Char.ofNat 0 ∉ text

/-- The characters of a line, each with whether a backslash stood before it, and whether
there is a backslash at the end of the line. -/
def unescape : Str → List (Char × Bool) × Bool
  | [] => ([], false)
  | ['\\'] => ([], true)
  | '\\' :: c :: s => ((c, true) :: (unescape s).1, (unescape s).2)
  | c :: s => ((c, false) :: (unescape s).1, (unescape s).2)

/-- A blank that no backslash stands before. -/
def isLoose (c : Char × Bool) : Bool := isBlank c.1 && !c.2

/-- The characters without the blanks around them. -/
def trimBlanks (cs : List (Char × Bool)) : Str :=
  ((cs.dropWhile isLoose).rdropWhile isLoose).map Prod.fst

/-- The characters that `read` takes, and the lines that are left. -/
def readChars : List Line → List (Char × Bool) × List Line
  | [] => ([], [])
  | l :: ls =>
    if (unescape l.text).2 then ((unescape l.text).1 ++ (readChars ls).1, (readChars ls).2)
    else ((unescape l.text).1, ls)

/-- `read x`: the value of `x`, and the lines that are left.  Where there is no line, the
value is empty. -/
def read (ls : List Line) : Str × List Line := (trimBlanks (readChars ls).1, (readChars ls).2)

namespace Line

/-- The line goes on in the next one. -/
def continues (l : Line) : Bool := (unescape l.text).2

/-- What `read` makes of a line. -/
def value (l : Line) : Str := trimBlanks (unescape l.text).1

end Line

/-- The text has no blank at its start and none at its end. -/
def Trimmed (s : Str) : Prop :=
  (∀ c ∈ s.head?, isBlank c = false) ∧ ∀ c ∈ s.getLast?, isBlank c = false

instance (s : Str) : Decidable (Trimmed s) :=
  decidable_of_iff ((s.head?.all fun c => !isBlank c) = true ∧
    (s.getLast?.all fun c => !isBlank c) = true)
    (by simp [Trimmed, Option.all_eq_true])

/-- Words with one blank in between have no blanks around them. -/
theorem trimmed_intercalate {ws : List Str} (h : ∀ w ∈ ws, w ≠ [] ∧ ∀ c ∈ w, isBlank c = false) :
    Trimmed ([' '].intercalate ws) := by
  have hword : ∀ {w : Str}, (∀ c ∈ w, isBlank c = false) → Trimmed w := fun hw =>
    ⟨fun c hc => hw c (List.mem_of_mem_head? hc), fun c hc => hw c (List.mem_of_getLast? hc)⟩
  induction ws with
  | nil => exact hword fun c hc => by cases hc
  | cons w ws ih =>
    obtain ⟨hne, hw⟩ := h w List.mem_cons_self
    cases ws with
    | nil =>
      rw [List.intercalate_singleton]
      exact hword hw
    | cons w' ws =>
      have hrest := ih fun v hv => h v (List.mem_cons_of_mem w hv)
      rw [List.intercalate_cons_cons]
      constructor
      · intro c hc
        rw [List.append_assoc, List.head?_append_of_ne_nil _ hne] at hc
        exact hw c (List.mem_of_mem_head? hc)
      · intro c hc
        -- the last word is not empty, and so the rest is not
        have hnext : w' ≠ [] := (h w' (by simp)).1
        have hne' : [' '].intercalate (w' :: ws) ≠ [] := by
          cases ws with
          | nil =>
            rw [List.intercalate_singleton]
            exact hnext
          | cons v ws =>
            rw [List.intercalate_cons_cons]
            simp
        rw [List.getLast?_append_of_ne_nil _ hne'] at hc
        exact hrest.2 c hc

theorem read_cons {l : Line} (h : l.continues = false) (ls : List Line) :
    read (l :: ls) = (l.value, ls) := by
  rw [Line.continues] at h
  rw [read, readChars, h]
  rfl

theorem length_read_le (ls : List Line) : (read ls).2.length ≤ ls.length := by
  unfold read
  induction ls with
  | nil => exact le_rfl
  | cons l ls ih =>
    rw [readChars]
    split
    · exact le_trans ih (Nat.le_succ _)
    · exact Nat.le_succ _

theorem length_read_lt {ls : List Line} (h : ls ≠ []) : (read ls).2.length < ls.length := by
  obtain ⟨l, ls, rfl⟩ := List.exists_cons_of_ne_nil h
  have hle := length_read_le ls
  unfold read at hle ⊢
  rw [readChars]
  split
  · exact Nat.lt_succ_of_le hle
  · exact Nat.lt_succ_self _

theorem unescape_of_notMem {s : Str} (h : '\\' ∉ s) :
    unescape s = (s.map fun c => (c, false), false) := by
  induction s with
  | nil => rfl
  | cons c s ih =>
    rw [List.mem_cons, not_or] at h
    rw [unescape, ih h.2]
    · rfl
    · rintro rfl
      exact absurd rfl h.1
    · rintro d t rfl
      exact absurd rfl h.1

theorem Line.continues_of_notMem {l : Line} (h : '\\' ∉ l.text) : l.continues = false := by
  rw [Line.continues, unescape_of_notMem h]

/-- **A line without blanks around it and without backslashes is its own value.** -/
theorem Line.value_eq {l : Line} (h : '\\' ∉ l.text) (htrim : Trimmed l.text) :
    l.value = l.text := by
  have hhead : (l.text.map fun c => (c, false)).dropWhile isLoose =
      l.text.map fun c => (c, false) := by
    cases hs : l.text with
    | nil => rfl
    | cons c s =>
      have hc : isBlank c = false := htrim.1 c (by rw [hs]; rfl)
      rw [List.map_cons, List.dropWhile_cons_of_neg (by simp [isLoose, hc])]
  have hlast : (l.text.map fun c => (c, false)).rdropWhile isLoose =
      l.text.map fun c => (c, false) := by
    rcases List.eq_nil_or_concat l.text with hs | ⟨s, c, hs⟩
    · rw [hs]
      rfl
    · rw [List.concat_eq_append] at hs
      have hc : isBlank c = false := htrim.2 c (by rw [hs]; simp)
      rw [hs, List.map_append, List.map_singleton,
        List.rdropWhile_concat_neg _ _ _ (by simp [isLoose, hc])]
  rw [Line.value, unescape_of_notMem h, trimBlanks, hhead, hlast, List.map_map]
  exact List.map_id _

/-! ### Printed words -/

/-- The word is an option to `echo`. -/
def isEchoOption : Str → Bool
  | '-' :: c :: s => (c :: s).all fun d => d = 'n' ∨ d = 'e' ∨ d = 'E'
  | _ => false

/-- `echo` with these words; `interpret` is what `echo -e` makes of backslashes.  The last
of `-e` and `-E` counts. -/
def echo (interpret : Str → Str) (words : List Str) : Str :=
  let options := (words.takeWhile isEchoOption).flatten
  let text := [' '].intercalate (words.dropWhile isEchoOption)
  let text := if 'n' ∈ options then text else text ++ ['\n']
  if (options.reverse.find? fun c => c = 'e' ∨ c = 'E') = some 'e' then interpret text else text

/-- Words that are no options are printed with one blank in between. -/
theorem echo_of_head {interpret : Str → Str} {words : List Str}
    (h : ∀ w ∈ words.head?, isEchoOption w = false) :
    echo interpret words = [' '].intercalate words ++ ['\n'] := by
  have htake : words.takeWhile isEchoOption = [] := by
    cases words with
    | nil => rfl
    | cons w ws => exact List.takeWhile_cons_of_neg (by simp [h w rfl])
  have hdrop : words.dropWhile isEchoOption = words := by
    cases words with
    | nil => rfl
    | cons w ws => exact List.dropWhile_cons_of_neg (by simp [h w rfl])
  unfold echo
  rw [htake, hdrop]
  rfl

/-- One word that is no option. -/
theorem echo_singleton {interpret : Str → Str} {w : Str} (h : isEchoOption w = false) :
    echo interpret [w] = w ++ ['\n'] := by
  rw [echo_of_head, List.intercalate_singleton]
  intro v hv
  rw [← Option.some.inj hv, h]

theorem isEchoOption_of_notMem {w : Str} (h : '-' ∉ w) : isEchoOption w = false := by
  unfold isEchoOption
  split
  · exact absurd List.mem_cons_self h
  · rfl

/-- `echo -n` prints one word as it is. -/
theorem echo_n {interpret : Str → Str} {w : Str} (h : isEchoOption w = false) :
    echo interpret ["-n".toList, w] = w := by
  have hn : isEchoOption "-n".toList = true := by decide
  unfold echo
  rw [List.takeWhile_cons_of_pos hn, List.takeWhile_cons_of_neg (by simp [h]),
    List.dropWhile_cons_of_pos hn, List.dropWhile_cons_of_neg (by simp [h])]
  simp

/-! ### Sourced lines -/

/-- The characters that end a word. -/
def isMeta (c : Char) : Bool := isBlank c || "|&;()<>".toList.contains c

/-- The characters that quote, and the one that starts a command substitution. -/
def isQuoting (c : Char) : Bool := "'\"\\`".toList.contains c

/-- A character that makes an expansion of a dollar sign before it. -/
def startsExpansion (c : Char) : Bool := c.isAlphanum || "_@*#?-$!\x7b([".toList.contains c

/-- The text has an expansion that starts with a dollar sign. -/
def hasExpansion : Str → Bool
  | '$' :: c :: s => startsExpansion c || hasExpansion (c :: s)
  | _ :: s => hasExpansion s
  | [] => false

/-- The text has a tilde where a login name is expanded: at its start, if it starts an
assignment, and after a colon. -/
def hasTilde : Bool → Str → Bool
  | _, [] => false
  | atStart, c :: s => (atStart && c = '~') || hasTilde (c = ':') s

theorem hasExpansion_of_notMem {s : Str} (h : '$' ∉ s) : hasExpansion s = false := by
  induction s with
  | nil => rfl
  | cons c s ih =>
    rw [List.mem_cons, not_or] at h
    rw [hasExpansion, ih h.2]
    rintro d t rfl
    exact absurd rfl h.1

theorem hasTilde_of_notMem {s : Str} (h : '~' ∉ s) (atStart : Bool) :
    hasTilde atStart s = false := by
  induction s generalizing atStart with
  | nil => rfl
  | cons c s ih =>
    rw [List.mem_cons, not_or] at h
    have hc : decide (c = '~') = false := decide_eq_false fun heq => h.1 heq.symm
    rw [hasTilde, ih h.2, hc, Bool.and_false, Bool.or_self]

/-- A text that stands for itself in an assignment. -/
def isBare (v : Str) : Bool :=
  v.all (fun c => !isMeta c && !isQuoting c) && !hasExpansion v && !hasTilde true v

/-- A text that stands for itself between double quotes. -/
def isQuotable (v : Str) : Bool :=
  v.all (fun c => !"\"\\`".toList.contains c) && !hasExpansion v

/-- A character of a name of a variable. -/
def isNameChar (c : Char) : Bool := c.isAlphanum || c = '_'

/-- The name of a variable. -/
def isVarName (x : Str) : Bool := x.all isNameChar && x.head?.any fun c => !c.isDigit

/-- A line that assigns a text to a variable, and does nothing else. -/
def assignment? (line : Str) : Option (Str × Str) :=
  let x := line.takeWhile isNameChar
  match line.dropWhile isNameChar with
  | '=' :: w =>
    if !isVarName x then none
    else if isBare w then some (x, w)
    else
      match w with
      | '"' :: v =>
        if v.getLast? = some '"' ∧ isQuotable v.dropLast then some (x, v.dropLast) else none
      | _ => none
  | _ => none

/-- A shell: its variables, and whether it has executed anything but assignments. -/
structure Shell where
  vars : Dict Str Str
  ran : Bool

/-- `$x` -/
def Shell.var (sh : Shell) (x : Str) : Str := (sh.vars.get? x).getD []

/-- What is left open of a shell. -/
structure Bash where
  /-- What `echo -e` makes of backslashes. -/
  interpret : Str → Str
  /-- Pathname expansion of words with extended patterns. -/
  extended : FileSystem → Path → Str → List Str
  /-- The execution of lines of which the first is no assignment. -/
  other : List Str → Shell → Shell

/-- Execute lines.  `other` is a shell on lines of which the first is no assignment. -/
def source (other : List Str → Shell → Shell) : List Str → Shell → Shell
  | [], sh => sh
  | line :: lines, sh =>
    match assignment? line with
    | some (x, v) => source other lines { sh with vars := sh.vars.set x v }
    | none => other (line :: lines) sh

theorem source_cons {other : List Str → Shell → Shell} {line x v : Str}
    (h : assignment? line = some (x, v)) (lines : List Str) (sh : Shell) :
    source other (line :: lines) sh = source other lines { sh with vars := sh.vars.set x v } := by
  rw [source, h]

section Assignments

variable {x v : Str}

theorem takeWhile_name (hx : isVarName x = true) (w : Str) :
    (x ++ '=' :: w).takeWhile isNameChar = x ∧ (x ++ '=' :: w).dropWhile isNameChar = '=' :: w := by
  rw [isVarName, Bool.and_eq_true, List.all_eq_true] at hx
  have hstop : ¬ isNameChar '=' = true := by decide
  rw [List.takeWhile_append_of_pos hx.1, List.takeWhile_cons_of_neg hstop, List.append_nil,
    List.dropWhile_append_of_pos hx.1, List.dropWhile_cons_of_neg hstop]
  exact ⟨rfl, rfl⟩

/-- **A bare text comes back from an assignment.** -/
theorem assignment?_of_isBare (hx : isVarName x = true) (hv : isBare v = true) :
    assignment? (x ++ '=' :: v) = some (x, v) := by
  obtain ⟨htake, hdrop⟩ := takeWhile_name hx v
  unfold assignment?
  rw [htake, hdrop]
  simp [hx, hv]

/-- **A quoted text comes back from an assignment.** -/
theorem assignment?_of_isQuotable (hx : isVarName x = true) (hv : isQuotable v = true) :
    assignment? (x ++ '=' :: '"' :: (v ++ ['"'])) = some (x, v) := by
  obtain ⟨htake, hdrop⟩ := takeWhile_name hx ('"' :: (v ++ ['"']))
  -- the quotes are not bare
  have hbare : isBare ('"' :: (v ++ ['"'])) = false := by
    have hquote : isQuoting '"' = true := by decide
    simp [isBare, hquote]
  unfold assignment?
  rw [htake, hdrop]
  simp [hx, hv, hbare]

/-- A text of harmless characters is bare. -/
theorem isBare_of_forall
    (h : ∀ c ∈ v, (!isMeta c && !isQuoting c && c != '$' && c != '~') = true) :
    isBare v = true := by
  have hdollar : '$' ∉ v := fun hmem => by simpa using h '$' hmem
  have htilde : '~' ∉ v := fun hmem => by simpa using h '~' hmem
  rw [isBare, hasExpansion_of_notMem hdollar, hasTilde_of_notMem htilde, Bool.not_false,
    Bool.and_true, Bool.and_true, List.all_eq_true]
  intro c hc
  have hc := h c hc
  rw [Bool.and_eq_true, Bool.and_eq_true] at hc
  exact hc.1.1

/-- What a bare text is free of. -/
theorem notMem_of_isBare {c : Char} (hc : (!isMeta c && !isQuoting c) = false)
    (hv : isBare v = true) : c ∉ v := by
  intro h
  rw [isBare, Bool.and_eq_true, Bool.and_eq_true, List.all_eq_true] at hv
  rw [hv.1.1 c h] at hc
  cases hc

theorem trimmed_of_isBare (hv : isBare v = true) : Trimmed v := by
  have hblank : ∀ c ∈ v, isBlank c = false := by
    intro c hc
    by_contra hnot
    rw [Bool.not_eq_false] at hnot
    exact notMem_of_isBare (by simp [isMeta, hnot]) hv hc
  constructor
  · intro c hc
    exact hblank c (List.mem_of_mem_head? hc)
  · intro c hc
    exact hblank c (List.mem_of_getLast? hc)

/-- A bare line is its own value. -/
theorem read_of_isBare {l : Line} (h : isBare l.text = true) (ls : List Line) :
    read (l :: ls) = (l.text, ls) := by
  have hback : '\\' ∉ l.text := notMem_of_isBare (by decide) h
  rw [read_cons (Line.continues_of_notMem hback), Line.value_eq hback (trimmed_of_isBare h)]

theorem backslash_notMem_of_isQuotable (hv : isQuotable v = true) : '\\' ∉ v := by
  intro h
  rw [isQuotable, Bool.and_eq_true, List.all_eq_true] at hv
  have hquote : (!"\"\\`".toList.contains '\\') = false := by decide
  rw [hv.1 '\\' h] at hquote
  cases hquote

end Assignments

/-! ### Extended patterns -/

/-- The word has the start of an extended pattern in it. -/
def hasExtendedPattern : Str → Bool
  | c :: '(' :: s => "?*+@!".toList.contains c || hasExtendedPattern ('(' :: s)
  | _ :: s => hasExtendedPattern s
  | [] => false

/-- The words an unquoted expansion comes to when `extglob` is set; `extended` is the
pathname expansion of words with extended patterns. -/
def expandWordsExtended (extended : FileSystem → Path → Str → List Str) (fs : FileSystem)
    (cwd : Path) (s : Str) : List Str :=
  (fields isBlank s).flatMap fun w =>
    if hasExtendedPattern w then extended fs cwd w else glob fs cwd w

/-- Words that stand for themselves. -/
theorem expandWordsExtended_of_forall {extended : FileSystem → Path → Str → List Str}
    {fs : FileSystem} {cwd : Path} {s : Str}
    (h : ∀ w ∈ fields isBlank s, hasExtendedPattern w = false ∧ glob fs cwd w = [w]) :
    expandWordsExtended extended fs cwd s = fields isBlank s := by
  have hword : ∀ w ∈ fields isBlank s,
      (if hasExtendedPattern w then extended fs cwd w else glob fs cwd w) = [w] := by
    intro w hw
    rw [(h w hw).1, if_neg Bool.false_ne_true, (h w hw).2]
  calc expandWordsExtended extended fs cwd s = (fields isBlank s).flatMap fun w => [w] :=
        List.flatMap_congr hword
    _ = fields isBlank s := List.flatMap_singleton' _

/-! ### The lines of a file -/

/-- The lines of a text, each of which ends in a newline, but for the last one. -/
def textLines (s : Str) : List Str :=
  let parts := s.splitOn '\n'
  if parts.getLast? = some [] then parts.dropLast else parts

theorem splitOn_unlines {ls : List Str} (h : ∀ l ∈ ls, '\n' ∉ l) :
    (unlines ls).splitOn '\n' = ls ++ [[]] := by
  induction ls with
  | nil => rfl
  | cons l ls ih =>
    have hl : ∀ c ∈ l, (c == '\n') = false := by
      intro c hc
      rw [beq_eq_false_iff_ne]
      rintro rfl
      exact h l List.mem_cons_self hc
    have hrest := ih fun l' hl' => h l' (List.mem_cons_of_mem l hl')
    rw [List.splitOn_eq_splitOnP] at hrest ⊢
    rw [unlines, List.flatMap_cons, List.append_assoc, List.singleton_append,
      List.splitOnP_append_cons_of_forall_mem hl '\n' (by simp)]
    exact congrArg (l :: ·) hrest

/-- Lines come back from a file. -/
theorem textLines_unlines {ls : List Str} (h : ∀ l ∈ ls, '\n' ∉ l) :
    textLines (unlines ls) = ls := by
  unfold textLines
  rw [splitOn_unlines h]
  dsimp only
  rw [List.getLast?_concat, List.dropLast_concat, if_pos rfl]

/-- Every line of the text ends. -/
def LinesEnd (s : Str) : Prop := s = [] ∨ s.getLast? = some '\n'

theorem linesEnd_append {s t : Str} (hs : LinesEnd s) (ht : LinesEnd t) : LinesEnd (s ++ t) := by
  rcases ht with rfl | ht
  · rwa [List.append_nil]
  · right
    rw [List.getLast?_append, ht]
    rfl

/-- Lines are appended behind lines that end. -/
theorem textLines_append {s : Str} (hs : LinesEnd s) (t : Str) :
    textLines (s ++ t) = textLines s ++ textLines t := by
  rcases hs with rfl | hs
  · rfl
  · obtain ⟨s, rfl⟩ := List.getLast?_eq_some_iff.mp hs
    have hsplit : ∀ u : Str, (s ++ '\n' :: u).splitOn '\n' = s.splitOn '\n' ++ u.splitOn '\n' :=
      fun u => by
        rw [List.splitOn_eq_splitOnP, List.splitOn_eq_splitOnP, List.splitOn_eq_splitOnP]
        exact List.splitOnP_append_cons s u (by simp)
    have hne : t.splitOn '\n' ≠ [] := List.splitOn_ne_nil _ _
    unfold textLines
    rw [List.append_assoc, List.singleton_append, hsplit, hsplit, List.splitOn_nil]
    dsimp only
    rw [List.getLast?_concat, if_pos rfl, List.dropLast_concat,
      List.getLast?_append_of_ne_nil _ hne, List.dropLast_append_of_ne_nil hne]
    split <;> rfl
/-! ### Newlines at the end -/

theorem prefix_chomp (s : Str) : chomp s <+: s := List.rdropWhile_prefix _ s

theorem chomp_concat_of_ne {c : Char} (hc : c ≠ '\n') (s : Str) : chomp (s ++ [c]) = s ++ [c] := by
  simp [chomp, hc]

/-- Newlines at the end that are dropped early or late. -/
theorem chomp_map_chomp {f : Char → Char} (hf : f '\n' = '\n') (s : Str) :
    chomp ((chomp s).map f) = chomp (s.map f) := by
  induction s using List.reverseRecOn with
  | nil => rfl
  | append_singleton s c ih =>
    by_cases hc : c = '\n'
    · rw [hc, chomp_concat, ih, List.map_append, List.map_singleton, hf, chomp_concat]
    · rw [chomp_concat_of_ne hc]

/-- Newlines at the end make no word. -/
theorem fields_chomp (s : Str) : fields isBlank (chomp s) = fields isBlank s := by
  induction s using List.reverseRecOn with
  | nil => rfl
  | append_singleton s c ih =>
    by_cases hc : c = '\n'
    · rw [hc, chomp_concat, ih, fields_append_cons (by decide), fields_nil, List.append_nil]
    · rw [chomp_concat_of_ne hc]

/-- The newlines at the end make no line but empty ones. -/
theorem mem_splitOn_chomp {l s : Str} (hl : l ≠ []) (h : l ∈ s.splitOn '\n') :
    l ∈ (chomp s).splitOn '\n' := by
  induction s using List.reverseRecOn with
  | nil => exact h
  | append_singleton s c ih =>
    by_cases hc : c = '\n'
    · rw [hc, List.splitOn_append_cons_self, List.mem_append, List.splitOn_nil,
        List.mem_singleton] at h
      rw [hc, chomp_concat]
      exact ih (h.resolve_right hl)
    · rw [chomp_concat_of_ne hc]
      exact h

/-- The lines of a line are lines of the text. -/
theorem splitOn_subset_unlines {f : Char → Char} (hf : f '\n' = '\n') {l : Str} {ls : List Str}
    (h : l ∈ ls) : (l.map f).splitOn '\n' ⊆ ((unlines ls).map f).splitOn '\n' := by
  induction ls with
  | nil => cases h
  | cons l' ls ih =>
    have hsplit : ((unlines (l' :: ls)).map f).splitOn '\n' =
        (l'.map f).splitOn '\n' ++ ((unlines ls).map f).splitOn '\n' := by
      rw [unlines, List.flatMap_cons, List.append_assoc, List.singleton_append, List.map_append,
        List.map_cons, hf, List.splitOn_append_cons_self]
      rfl
    rw [hsplit]
    rcases List.mem_cons.mp h with rfl | h
    · exact List.subset_append_left _ _
    · exact List.Subset.trans (ih h) (List.subset_append_right _ _)

end Dfuser
