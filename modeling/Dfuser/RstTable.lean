import Dfuser.History.Database
import Dfuser.Lib.Columns
import Dfuser.Lib.Lines
import Dfuser.Lib.TextFile

/-!
# Tables of acronyms

`scripts/bash/acronym` looks words up in a dictionary whose values are texts or lists of
texts, and `scripts/bash/rst_table` makes a table of the words it reads, in two columns,
from the same dictionary.  It takes the length of a value, which both have, for the width
of a column, and then appends blanks to the value, which only a text lets it do.

## Main definitions

* `normalizeCell`, `tableDiv`, `makeTable` — the table of a grid.
* `rstTable`, `acronym` — what the two programs print.
* `Aligned` — a table whose separators are in line, and which can be read back.
* `Tabulates` — there is one row for every word, with all of its definitions.

## Main results

* `makeTable_pairs` — the lines of the table of a grid of texts.
* `makeTable_aligned` — **the table of a grid of texts is aligned.**
* `makeTable_of_list` — there is no table with a list in it.
* `tabulates_iff` — **which words there is a table of.**
-/

namespace Dfuser
namespace RstTable

open Columns (ruled stops cellsOf strip)

/-! ### Values -/

/-- The exceptions the programs can raise. -/
inductive PyError
  | indexError
  | typeError
  /-- The largest element of an empty list. -/
  | valueError
  deriving DecidableEq

/-- The values of the dictionary. -/
inductive Value
  | str (s : Str)
  | list (l : List Str)
  deriving DecidableEq

namespace Value

/-- `len(value)`: of a text its characters, and of a list its elements. -/
def len : Value → ℕ
  | .str s => s.length
  | .list l => l.length

/-- The definitions that a value holds. -/
def definitions : Value → List Str
  | .str s => [s]
  | .list l => l

end Value

/-! ### The table -/

/-- `l[i]` -/
def item {α : Type} (l : List α) (i : ℕ) : Except PyError α :=
  match l[i]? with
  | some a => .ok a
  | none => .error .indexError

/-- `string + ((length - len(string)) * ' ')`; a list and a text have no sum. -/
def normalizeCell : Value → ℕ → Except PyError Str
  | .str s, length => .ok (s ++ List.replicate (length - s.length) ' ')
  | .list _, _ => .error .typeError

def tableDiv (numCols : ℕ) (colWidth : List ℕ) (headerFlag : Bool) : Except PyError Str := do
  let sep := if headerFlag then '=' else '-'
  let output ← (List.range numCols).foldlM (fun (output : Str) i => do
    let width ← item colWidth i
    return output ++ '+' :: List.replicate width sep) []
  return output ++ ['+', '\n']

/-- `2 + max([len(row[i]) for row in grid])` -/
def columnWidth (grid : List (List Value)) (i : ℕ) : Except PyError ℕ := do
  let lengths ← grid.mapM fun row => Value.len <$> item row i
  match lengths.max? with
  | some m => return 2 + m
  | none => throw .valueError

/-- What the loop over the grid does with the table so far and the flag of the header. -/
def addRow (numCols : ℕ) (cellWidth : List ℕ) (state : Str × Bool) (row : List Value) :
    Except PyError (Str × Bool) := do
  let cells ← row.zipIdx.mapM fun (x, i) => do normalizeCell x ((← item cellWidth i) - 1)
  let div ← tableDiv numCols cellWidth state.2
  return (state.1 ++ "| ".toList ++ "| ".toList.intercalate cells ++ "|\n".toList ++ div, false)

def makeTable (grid : List (List Value)) : Except PyError Str := do
  let cellWidth := [← columnWidth grid 0, ← columnWidth grid 1]
  let numCols := (← item grid 0).length
  let rst ← tableDiv numCols cellWidth false
  let (rst, _) ← grid.foldlM (addRow numCols cellWidth) (rst, true)
  return rst

/-! ### The programs -/

variable (dict : Dict Str Value)

/-- The words that are read, one on a line. -/
def inputWords (stdin : Str) : List Str :=
  (textLines (universalNewlines stdin)).map (strip History.isSpace)

/-- The row of a word. -/
def tableRow (acronym : Str) : List Value :=
  [.str acronym, (dict.get? acronym).getD (.str [])]

/-- What `rst_table` prints. -/
def rstTable (stdin : Str) : Except PyError Str := do
  let acronymTable := [.str "Acronym".toList, .str "Definition".toList] ::
    (inputWords stdin).map (tableRow dict)
  return (← makeTable acronymTable) ++ ['\n']

/-- The lines that `acronym ?` prints; `repr` is what a list is printed as.  An empty
dictionary has no longest acronym, and nothing is printed. -/
def acronymList (repr : List Str → Str) : List Str :=
  let width := (dict.keys.map List.length).foldr max 0
  (sortTexts dict.keys).map fun acronym =>
    acronym ++ List.replicate (width - acronym.length) ' ' ++ ": ".toList ++
      match dict.get? acronym with
      | some (.str s) => s
      | some (.list l) => repr l
      | none => []

/-- The lines that are printed for a word. -/
def acronymLines (line : Str) : List Str :=
  let acronym := strip History.isSpace line
  match dict.get? acronym with
  | some (.list l) =>
    (acronym ++ ": ".toList ++ Nat.toDigits 10 l.length ++ " definitions".toList) ::
      l.map ("  ".toList ++ ·)
  | some (.str s) => [acronym ++ ": ".toList ++ s]
  | none => [acronym ++ ": unknown".toList]

/-- What `acronym` prints, for its arguments. -/
def acronym (repr : List Str → Str) : List Str → Str
  | [] => []
  | line :: args =>
    if line = "?".toList then unlines (acronymList dict repr)
    else unlines (acronymLines dict line) ++ acronym repr args

/-! ### Tables that can be read -/

/-- The lines of a table: a divider, and then every row with the divider below it. -/
structure Layout where
  top : Str
  rows : List (Str × Str)

namespace Layout

def lines (l : Layout) : List Str := l.top :: l.rows.flatMap fun r => [r.1, r.2]

/-- The lines that are rows. -/
def rowLines (l : Layout) : List Str := l.rows.map Prod.fst

/-- The lines that are dividers. -/
def dividers (l : Layout) : List Str := l.top :: l.rows.map Prod.snd

end Layout

/-- A divider made of `c`. -/
def IsDivider (c : Char) (line : Str) : Prop :=
  (line.all fun d => d = '+' || d = c) = true ∧ c ∈ line

/-- All lines are as long, the separators of rows and dividers are at the same places, the
one divider made of `=` follows the first row, and the cells can be read back but for
what counts as blank around them. -/
structure Aligned (grid : List (Str × Str)) (l : Layout) : Prop where
  length_eq : ∃ n, ∀ line ∈ l.lines, line.length = n
  separators : ∃ places, (∀ line ∈ l.rowLines, line.idxsOf '|' 0 = places) ∧
    ∀ line ∈ l.dividers, line.idxsOf '+' 0 = places
  top : IsDivider '-' l.top
  header : ∃ first rest, l.rows = first :: rest ∧ IsDivider '=' first.2 ∧
    ∀ r ∈ rest, IsDivider '-' r.2
  cells : ∀ p : Char → Bool, p ' ' = true →
    l.rowLines.map (fun line => (cellsOf '|' line).map (strip p)) =
      grid.map fun row => [strip p row.1, strip p row.2]

/-- The row of a word: the word, and a cell with all definitions of it, or with nothing
but blanks. -/
def IsRowOf (word row : Str) : Prop :=
  ∃ n cell, row = "| ".toList ++ word ++ List.replicate n ' ' ++ "| ".toList ++ cell ++ ['|'] ∧
    match dict.get? word with
    | some v => ∀ d ∈ v.definitions, d <:+: cell
    | none => (cell.all (· = ' ')) = true

/-- The lines of what is printed that are rows. -/
def printedRows (table : Str) : List Str :=
  (textLines table).filter fun line => line.head? = some '|'

/-- There is a table with a header and one row for each word, in order. -/
def Tabulates (stdin : Str) : Prop :=
  ∃ table, rstTable dict stdin = .ok table ∧
    ∃ header rows, printedRows table = header :: rows ∧
      List.Forall₂ (IsRowOf dict) (inputWords stdin) rows

/-! ### The lines of a table -/

section Lines

variable {dict} (w₀ w₁ : ℕ)

def dividerLine (headerFlag : Bool) : Str :=
  ruled '+' [List.replicate w₀ (if headerFlag then '=' else '-'),
    List.replicate w₁ (if headerFlag then '=' else '-')]

def rowLine (a b : Str) : Str :=
  ruled '|' [' ' :: (a ++ List.replicate (w₀ - 1 - a.length) ' '),
    ' ' :: (b ++ List.replicate (w₁ - 1 - b.length) ' ')]

/-- Rows and dividers; the flag is that of the header. -/
def body : Bool → List (Str × Str) → List (Str × Str)
  | _, [] => []
  | flag, r :: grid => (rowLine w₀ w₁ r.1 r.2, dividerLine w₀ w₁ flag) :: body false grid

/-- The lines of a table with columns of these widths. -/
def layout (grid : List (Str × Str)) : Layout := ⟨dividerLine w₀ w₁ false, body w₀ w₁ true grid⟩

theorem tableDiv_two (flag : Bool) :
    tableDiv 2 [w₀, w₁] flag = .ok (dividerLine w₀ w₁ flag ++ ['\n']) := by
  have hrange : List.range 2 = [0, 1] := rfl
  simp [tableDiv, hrange, item, dividerLine, ruled, pure, bind, Except.pure, Except.bind]

theorem addRow_str (rst a b : Str) (flag : Bool) :
    addRow 2 [w₀, w₁] (rst, flag) [.str a, .str b] =
      .ok (rst ++ unlines [rowLine w₀ w₁ a b, dividerLine w₀ w₁ flag], false) := by
  simp [addRow, tableDiv_two, item, normalizeCell, rowLine, ruled, unlines, pure, bind, Except.pure,
    Except.bind]

theorem addRow_list (rst a : Str) (l : List Str) (flag : Bool) :
    addRow 2 [w₀, w₁] (rst, flag) [.str a, .list l] = .error .typeError := rfl

/-- The loop over a grid of texts. -/
theorem foldlM_addRow (grid : List (Str × Str)) (rst : Str) (flag : Bool) :
    (grid.map fun r => [Value.str r.1, .str r.2]).foldlM (addRow 2 [w₀, w₁]) (rst, flag) =
      .ok (rst ++ unlines ((body w₀ w₁ flag grid).flatMap fun r => [r.1, r.2]),
        flag && grid.isEmpty) := by
  induction grid generalizing rst flag with
  | nil => simp [body, unlines, pure, Except.pure]
  | cons r grid ih =>
    rw [List.map_cons, List.foldlM_cons, addRow_str]
    dsimp only [bind, Except.bind]
    rw [ih, body, List.flatMap_cons]
    simp [unlines]

/-- With a list in it the loop stops. -/
theorem foldlM_addRow_of_list {grid : List (Str × Value)} {l : List Str}
    (h : ∃ r ∈ grid, r.2 = .list l) (rst : Str) (flag : Bool) :
    (grid.map fun r => [Value.str r.1, r.2]).foldlM (addRow 2 [w₀, w₁]) (rst, flag) =
      .error .typeError := by
  induction grid generalizing rst flag with
  | nil =>
    obtain ⟨r, hr, -⟩ := h
    cases hr
  | cons r grid ih =>
    obtain ⟨a, v⟩ := r
    rw [List.map_cons, List.foldlM_cons]
    cases v with
    | list l' =>
      rw [addRow_list]
      rfl
    | str b =>
      rw [addRow_str]
      apply ih
      obtain ⟨r, hr, hlist⟩ := h
      rcases List.mem_cons.mp hr with rfl | hr
      · cases hlist
      · exact ⟨r, hr, hlist⟩

end Lines

/-! ### Lines in line -/

section Aligned

variable {w₀ w₁ : ℕ} {a b : Str}

/-- A cell of a row, with the blank before it. -/
theorem length_cell {w : ℕ} (h : a.length + 2 ≤ w) :
    (' ' :: (a ++ List.replicate (w - 1 - a.length) ' ')).length = w := by
  rw [List.length_cons, List.length_append, List.length_replicate]
  omega

theorem notMem_cell {c : Char} (hc : c ≠ ' ') (ha : c ∉ a) (n : ℕ) :
    c ∉ ' ' :: (a ++ List.replicate n ' ') := by
  rw [List.mem_cons, List.mem_append, List.mem_replicate]
  tauto

theorem length_rowLine (ha : a.length + 2 ≤ w₀) (hb : b.length + 2 ≤ w₁) :
    (rowLine w₀ w₁ a b).length = w₀ + w₁ + 3 := by
  rw [rowLine, Columns.length_ruled]
  simp only [List.map_cons, List.map_nil, length_cell ha, length_cell hb, List.sum_cons,
    List.sum_nil]
  omega

theorem length_dividerLine (flag : Bool) : (dividerLine w₀ w₁ flag).length = w₀ + w₁ + 3 := by
  rw [dividerLine, Columns.length_ruled]
  simp only [List.map_cons, List.map_nil, List.length_replicate, List.sum_cons, List.sum_nil]
  omega

theorem notMem_rowLine {c : Char} (hbar : c ≠ '|') (hc : c ≠ ' ') (ha : c ∉ a) (hb : c ∉ b) :
    c ∉ rowLine w₀ w₁ a b := by
  rw [rowLine, Columns.mem_ruled]
  rintro (heq | ⟨cell, hcell, hmem⟩)
  · exact hbar heq
  · rw [List.mem_pair] at hcell
    rcases hcell with rfl | rfl
    · exact notMem_cell hc ha _ hmem
    · exact notMem_cell hc hb _ hmem

theorem mem_dividerLine {c : Char} {flag : Bool} (h : c ∈ dividerLine w₀ w₁ flag) :
    c = '+' ∨ c = if flag then '=' else '-' := by
  rw [dividerLine, Columns.mem_ruled] at h
  refine h.imp_right ?_
  rintro ⟨cell, hcell, hmem⟩
  rw [List.mem_pair] at hcell
  rcases hcell with rfl | rfl
  · exact List.eq_of_mem_replicate hmem
  · exact List.eq_of_mem_replicate hmem

theorem notMem_dividerLine {c : Char} (hplus : c ≠ '+') (heq : c ≠ '=') (hdash : c ≠ '-')
    (flag : Bool) : c ∉ dividerLine w₀ w₁ flag := by
  intro h
  rcases mem_dividerLine h with rfl | hc
  · exact hplus rfl
  · cases flag
    · exact hdash hc
    · exact heq hc

theorem isDivider_dividerLine (hw : 0 < w₀) (flag : Bool) :
    IsDivider (if flag then '=' else '-') (dividerLine w₀ w₁ flag) := by
  constructor
  · rw [List.all_eq_true]
    intro c hc
    rw [Bool.or_eq_true, decide_eq_true_eq, decide_eq_true_eq]
    exact mem_dividerLine hc
  · rw [dividerLine, Columns.mem_ruled]
    right
    exact ⟨_, List.mem_cons_self, List.mem_replicate.mpr ⟨Nat.pos_iff_ne_zero.mp hw, rfl⟩⟩

/-- The separators of a row. -/
theorem idxsOf_rowLine (ha : a.length + 2 ≤ w₀) (hb : b.length + 2 ≤ w₁) (habar : '|' ∉ a)
    (hbbar : '|' ∉ b) : (rowLine w₀ w₁ a b).idxsOf '|' 0 = stops 0 [w₀, w₁] := by
  rw [rowLine, Columns.idxsOf_ruled]
  · simp only [List.map_cons, List.map_nil, length_cell ha, length_cell hb]
  · intro cell hcell
    rw [List.mem_pair] at hcell
    rcases hcell with rfl | rfl
    · exact notMem_cell (by decide) habar _
    · exact notMem_cell (by decide) hbbar _

/-- The separators of a divider are at the same places. -/
theorem idxsOf_dividerLine (flag : Bool) :
    (dividerLine w₀ w₁ flag).idxsOf '+' 0 = stops 0 [w₀, w₁] := by
  rw [dividerLine, Columns.idxsOf_ruled]
  · simp only [List.map_cons, List.map_nil, List.length_replicate]
  · intro cell hcell hmem
    have hfill : '+' = if flag then '=' else '-' := by
      rw [List.mem_pair] at hcell
      rcases hcell with rfl | rfl
      · exact List.eq_of_mem_replicate hmem
      · exact List.eq_of_mem_replicate hmem
    cases flag
    · exact absurd hfill (by decide)
    · exact absurd hfill (by decide)

/-- The cells of a row come back without the blanks around them. -/
theorem cellsOf_rowLine {p : Char → Bool} (hp : p ' ' = true) (habar : '|' ∉ a) (hbbar : '|' ∉ b) :
    (cellsOf '|' (rowLine w₀ w₁ a b)).map (strip p) = [strip p a, strip p b] := by
  rw [rowLine, Columns.cellsOf_ruled]
  · simp only [List.map_cons, List.map_nil, Columns.strip_cons_of_pos hp,
      Columns.strip_append_replicate hp]
  · intro cell hcell
    rw [List.mem_pair] at hcell
    rcases hcell with rfl | rfl
    · exact notMem_cell (by decide) habar _
    · exact notMem_cell (by decide) hbbar _

theorem map_fst_body (flag : Bool) (grid : List (Str × Str)) :
    (body w₀ w₁ flag grid).map Prod.fst = grid.map fun r => rowLine w₀ w₁ r.1 r.2 := by
  induction grid generalizing flag with
  | nil => rfl
  | cons r grid ih => rw [body, List.map_cons, ih, List.map_cons]

theorem mem_body {flag : Bool} {grid : List (Str × Str)} {x : Str × Str}
    (h : x ∈ body w₀ w₁ flag grid) :
    (∃ r ∈ grid, x.1 = rowLine w₀ w₁ r.1 r.2) ∧ ∃ flag', x.2 = dividerLine w₀ w₁ flag' := by
  induction grid generalizing flag with
  | nil => cases h
  | cons r grid ih =>
    rcases List.mem_cons.mp h with rfl | h
    · exact ⟨⟨r, List.mem_cons_self, rfl⟩, flag, rfl⟩
    · obtain ⟨⟨r', hr', hrow⟩, hdivider⟩ := ih h
      exact ⟨⟨r', List.mem_cons_of_mem r hr', hrow⟩, hdivider⟩

theorem snd_of_mem_body {grid : List (Str × Str)} {x : Str × Str} (h : x ∈ body w₀ w₁ false grid) :
    x.2 = dividerLine w₀ w₁ false := by
  induction grid with
  | nil => cases h
  | cons r grid ih =>
    rcases List.mem_cons.mp h with rfl | h
    · rfl
    · exact ih h

/-- A line of a table is a row or a divider. -/
theorem mem_lines_layout {grid : List (Str × Str)} {line : Str}
    (h : line ∈ (layout w₀ w₁ grid).lines) :
    (∃ r ∈ grid, line = rowLine w₀ w₁ r.1 r.2) ∨ ∃ flag, line = dividerLine w₀ w₁ flag := by
  rcases List.mem_cons.mp h with rfl | h
  · exact .inr ⟨false, rfl⟩
  · obtain ⟨x, hx, hline⟩ := List.mem_flatMap.mp h
    obtain ⟨hrow, hdivider⟩ := mem_body hx
    rcases List.mem_pair.mp hline with rfl | rfl
    · exact .inl hrow
    · exact .inr hdivider

theorem newline_notMem_layout {grid : List (Str × Str)} (h : ∀ r ∈ grid, '\n' ∉ r.1 ∧ '\n' ∉ r.2) :
    ∀ line ∈ (layout w₀ w₁ grid).lines, '\n' ∉ line := by
  intro line hline
  rcases mem_lines_layout hline with ⟨r, hr, rfl⟩ | ⟨flag, rfl⟩
  · exact notMem_rowLine (by decide) (by decide) (h r hr).1 (h r hr).2
  · exact notMem_dividerLine (by decide) (by decide) (by decide) flag

/-- Columns with room for every cell are in line. -/
theorem aligned_layout {grid : List (Str × Str)} (hne : grid ≠ [])
    (hle : ∀ r ∈ grid, r.1.length + 2 ≤ w₀ ∧ r.2.length + 2 ≤ w₁)
    (hbar : ∀ r ∈ grid, '|' ∉ r.1 ∧ '|' ∉ r.2) : Aligned grid (layout w₀ w₁ grid) := by
  obtain ⟨r₀, rest, hgrid⟩ := List.exists_cons_of_ne_nil hne
  have hw : 0 < w₀ := by
    have := (hle r₀ (hgrid ▸ List.mem_cons_self)).1
    omega
  constructor
  case length_eq =>
    refine ⟨w₀ + w₁ + 3, ?_⟩
    intro line hline
    rcases mem_lines_layout hline with ⟨r, hr, rfl⟩ | ⟨flag, rfl⟩
    · exact length_rowLine (hle r hr).1 (hle r hr).2
    · exact length_dividerLine flag
  case separators =>
    refine ⟨stops 0 [w₀, w₁], ?_, ?_⟩
    · intro line hline
      obtain ⟨x, hx, rfl⟩ := List.mem_map.mp hline
      obtain ⟨⟨r, hr, hrow⟩, -⟩ := mem_body hx
      rw [hrow]
      exact idxsOf_rowLine (hle r hr).1 (hle r hr).2 (hbar r hr).1 (hbar r hr).2
    · intro line hline
      rcases List.mem_cons.mp hline with rfl | hline
      · exact idxsOf_dividerLine false
      · obtain ⟨x, hx, rfl⟩ := List.mem_map.mp hline
        obtain ⟨-, flag, hdivider⟩ := mem_body hx
        rw [hdivider]
        exact idxsOf_dividerLine flag
  case top => exact isDivider_dividerLine hw false
  case header =>
    subst hgrid
    refine ⟨_, _, rfl, isDivider_dividerLine hw true, ?_⟩
    intro x hx
    rw [snd_of_mem_body hx]
    exact isDivider_dividerLine hw false
  case cells =>
    intro p hp
    rw [Layout.rowLines, layout, map_fst_body, List.map_map]
    apply List.map_congr_left
    intro r hr
    exact cellsOf_rowLine hp (hbar r hr).1 (hbar r hr).2

end Aligned

/-! ### The whole table -/

/-- The width of a column that every row has. -/
theorem exists_columnWidth {grid : List (List Value)} {i : ℕ} (hne : grid ≠ [])
    (h : ∀ row ∈ grid, ∃ v, row[i]? = some v) :
    ∃ w, columnWidth grid i = .ok w ∧ ∀ row ∈ grid, ∀ v, row[i]? = some v → v.len + 2 ≤ w := by
  have hlengths : ∀ g : List (List Value), (∀ row ∈ g, ∃ v, row[i]? = some v) →
      ∃ lengths, (g.mapM fun row => Value.len <$> item row i) = .ok lengths ∧
        lengths.length = g.length ∧ ∀ row ∈ g, ∀ v, row[i]? = some v → v.len ∈ lengths := by
    intro g hg
    induction g with
    | nil => exact ⟨[], rfl, rfl, fun row hrow => by cases hrow⟩
    | cons row g ih =>
      obtain ⟨⟨v, hv⟩, hrest⟩ := List.forall_mem_cons.mp hg
      obtain ⟨lengths, hmap, hlength, hmem⟩ := ih hrest
      refine ⟨v.len :: lengths, ?_, by rw [List.length_cons, hlength, List.length_cons], ?_⟩
      · rw [List.mapM_cons, hmap, item, hv]
        rfl
      · intro row' hrow' v' hv'
        rcases List.mem_cons.mp hrow' with rfl | hrow'
        · rw [hv, Option.some.injEq] at hv'
          rw [hv']
          exact List.mem_cons_self
        · exact List.mem_cons_of_mem _ (hmem row' hrow' v' hv')
  obtain ⟨lengths, hmap, hlength, hmem⟩ := hlengths grid h
  cases hmax : lengths.max? with
  | none =>
    rw [List.max?_eq_none_iff] at hmax
    rw [hmax, List.length_nil] at hlength
    exact absurd (List.length_eq_zero_iff.mp hlength.symm) hne
  | some m =>
    refine ⟨2 + m, ?_, ?_⟩
    · rw [columnWidth, hmap]
      dsimp only [bind, Except.bind]
      rw [hmax]
      rfl
    · intro row hrow v hv
      have hle : v.len ≤ m := (List.max?_eq_some_iff.mp hmax).2 _ (hmem row hrow v hv)
      omega

/-- What a table of two columns is made with: widths that leave room for every cell. -/
theorem exists_makeTable {grid : List (Value × Value)} (hne : grid ≠ []) :
    ∃ w₀ w₁, (∀ r ∈ grid, r.1.len + 2 ≤ w₀ ∧ r.2.len + 2 ≤ w₁) ∧
      makeTable (grid.map fun r => [r.1, r.2]) =
        ((grid.map fun r => [r.1, r.2]).foldlM (addRow 2 [w₀, w₁])
          (dividerLine w₀ w₁ false ++ ['\n'], true)).map Prod.fst := by
  have hne' : (grid.map fun r => [r.1, r.2]) ≠ [] := by simpa using hne
  have htwo : ∀ row ∈ grid.map fun r => [r.1, r.2], ∀ i < 2, ∃ v, row[i]? = some v := by
    intro row hrow i hi
    obtain ⟨r, -, rfl⟩ := List.mem_map.mp hrow
    exact ⟨_, List.getElem?_eq_getElem hi⟩
  obtain ⟨w₀, hw₀, hle₀⟩ := exists_columnWidth hne' fun row hrow => htwo row hrow 0 (by omega)
  obtain ⟨w₁, hw₁, hle₁⟩ := exists_columnWidth hne' fun row hrow => htwo row hrow 1 (by omega)
  refine ⟨w₀, w₁, ?_, ?_⟩
  · intro r hr
    have hrow : [r.1, r.2] ∈ grid.map fun r => [r.1, r.2] := List.mem_map_of_mem hr
    exact ⟨hle₀ _ hrow r.1 rfl, hle₁ _ hrow r.2 rfl⟩
  · obtain ⟨r, rest, rfl⟩ := List.exists_cons_of_ne_nil hne
    have hfirst : item ((r :: rest).map fun r => [r.1, r.2]) 0 = .ok [r.1, r.2] := rfl
    rw [makeTable, hw₀, hw₁, hfirst]
    dsimp only [bind, Except.bind]
    have hcols : [r.1, r.2].length = 2 := rfl
    rw [hcols, tableDiv_two]
    dsimp only
    cases ((r :: rest).map fun r => [r.1, r.2]).foldlM (addRow 2 [w₀, w₁])
        (dividerLine w₀ w₁ false ++ ['\n'], true) with
    | error e => rfl
    | ok state => rfl

/-- **The lines of the table of a grid of texts.** -/
theorem makeTable_pairs {grid : List (Str × Str)} (hne : grid ≠ []) :
    ∃ w₀ w₁, (∀ r ∈ grid, r.1.length + 2 ≤ w₀ ∧ r.2.length + 2 ≤ w₁) ∧
      makeTable (grid.map fun r => [.str r.1, .str r.2]) =
        .ok (unlines (layout w₀ w₁ grid).lines) := by
  have hne' : (grid.map fun r => (Value.str r.1, Value.str r.2)) ≠ [] := by simpa using hne
  obtain ⟨w₀, w₁, hle, htable⟩ := exists_makeTable hne'
  rw [List.map_map] at htable
  refine ⟨w₀, w₁, ?_, ?_⟩
  · intro r hr
    exact hle _ (List.mem_map_of_mem (f := fun r => (Value.str r.1, Value.str r.2)) hr)
  · refine htable.trans ?_
    have hloop := foldlM_addRow w₀ w₁ grid (dividerLine w₀ w₁ false ++ ['\n']) true
    have hmap : (grid.map ((fun r : Value × Value => [r.1, r.2]) ∘ fun r =>
      (Value.str r.1, Value.str r.2))) =
        grid.map fun r => [Value.str r.1, .str r.2] := rfl
    rw [hmap, hloop]
    simp [Except.map, layout, Layout.lines, unlines]

/-- **There is no table with a list in it.** -/
theorem makeTable_of_list {grid : List (Str × Value)} {l : List Str}
    (h : ∃ r ∈ grid, r.2 = .list l) :
    makeTable (grid.map fun r => [.str r.1, r.2]) = .error .typeError := by
  have hne : (grid.map fun r => (Value.str r.1, r.2)) ≠ [] := by
    obtain ⟨r, hr, -⟩ := h
    simpa using List.ne_nil_of_mem hr
  obtain ⟨w₀, w₁, -, htable⟩ := exists_makeTable hne
  rw [List.map_map] at htable
  have hmap : (grid.map ((fun r : Value × Value => [r.1, r.2]) ∘ fun r => (Value.str r.1, r.2))) =
      grid.map fun r => [Value.str r.1, r.2] := rfl
  rw [hmap, foldlM_addRow_of_list w₀ w₁ h] at htable
  exact htable

/-- **The table of a grid of texts is aligned** and can be read back. -/
theorem makeTable_aligned {grid : List (Str × Str)} (hne : grid ≠ [])
    (hplain : ∀ r ∈ grid, ('|' ∉ r.1 ∧ '\n' ∉ r.1) ∧ '|' ∉ r.2 ∧ '\n' ∉ r.2) :
    ∃ table l, makeTable (grid.map fun r => [.str r.1, .str r.2]) = .ok table ∧
      textLines table = l.lines ∧ Aligned grid l := by
  obtain ⟨w₀, w₁, hle, htable⟩ := makeTable_pairs hne
  refine ⟨_, layout w₀ w₁ grid, htable, ?_, ?_⟩
  · exact textLines_unlines (newline_notMem_layout fun r hr =>
      ⟨(hplain r hr).1.2, (hplain r hr).2.2⟩)
  · exact aligned_layout hne hle fun r hr => ⟨(hplain r hr).1.1, (hplain r hr).2.1⟩

/-- A table of two acronyms. -/
theorem makeTable_aligned_acronyms :
    let grid := [("Acronym".toList, "Definition".toList), ("AT".toList, "Anti-Tamper".toList),
      ("AXI4".toList, "AXI version 4".toList)]
    ∃ table l, makeTable (grid.map fun r => [.str r.1, .str r.2]) = .ok table ∧
      textLines table = l.lines ∧ Aligned grid l :=
  makeTable_aligned (List.cons_ne_nil _ _) (by decide)

/-! ### The table of the words that are read -/

section Words

variable {dict} {stdin : Str}

theorem newline_notMem_of_mem_textLines {s line : Str} (h : line ∈ textLines s) : '\n' ∉ line := by
  have hmem : line ∈ s.splitOn '\n' := by
    dsimp only [textLines] at h
    split at h
    · exact List.mem_of_mem_dropLast h
    · exact h
  rw [List.splitOn_eq_splitOnP] at hmem
  intro hnewline
  simpa using of_mem_splitOnP hmem '\n' hnewline

theorem newline_notMem_of_mem_inputWords {word : Str} (h : word ∈ inputWords stdin) :
    '\n' ∉ word := by
  obtain ⟨line, hline, rfl⟩ := List.mem_map.mp h
  intro hnewline
  exact newline_notMem_of_mem_textLines hline ((Columns.strip_sublist _ _).subset hnewline)

/-- A list among the values stops the program. -/
theorem rstTable_of_list {word : Str} {l : List Str} (hword : word ∈ inputWords stdin)
    (hvalue : dict.get? word = some (.list l)) : rstTable dict stdin = .error .typeError := by
  let grid := ("Acronym".toList, Value.str "Definition".toList) ::
    (inputWords stdin).map fun w => (w, (dict.get? w).getD (.str []))
  have hlist : ∃ r ∈ grid, r.2 = .list l := by
    refine ⟨(word, .list l), List.mem_cons_of_mem _ (List.mem_map.mpr ⟨word, hword, ?_⟩), rfl⟩
    rw [hvalue]
    rfl
  have htable := makeTable_of_list hlist
  rw [List.map_cons, List.map_map] at htable
  rw [rstTable]
  exact congrArg (· >>= fun table => pure (table ++ ['\n'])) htable

/-- The text in the second column, where it is a text. -/
def definitionText (dict : Dict Str Value) (word : Str) : Str :=
  match dict.get? word with
  | some (.str s) => s
  | _ => []

/-- The grid of words whose values are texts. -/
def textGrid (dict : Dict Str Value) (stdin : Str) : List (Str × Str) :=
  ("Acronym".toList, "Definition".toList) :: (inputWords stdin).map fun w =>
    (w, definitionText dict w)

/-- Without a list there is a table. -/
theorem rstTable_of_texts
    (h : ∀ word ∈ inputWords stdin, ∀ v, dict.get? word = some v → ∃ s, v = .str s) :
    ∃ w₀ w₁, rstTable dict stdin =
      .ok (unlines (layout w₀ w₁ (textGrid dict stdin)).lines ++ ['\n']) := by
  have hne : textGrid dict stdin ≠ [] := List.cons_ne_nil _ _
  obtain ⟨w₀, w₁, -, htable⟩ := makeTable_pairs hne
  refine ⟨w₀, w₁, ?_⟩
  have hrows : (inputWords stdin).map (tableRow dict) =
      ((inputWords stdin).map fun w => (w, definitionText dict w)).map
        fun r => [Value.str r.1, Value.str r.2] := by
    rw [List.map_map]
    apply List.map_congr_left
    intro word hword
    rw [Function.comp_apply, tableRow, definitionText]
    cases hvalue : dict.get? word with
    | none => rfl
    | some v =>
      obtain ⟨s, rfl⟩ := h word hword v hvalue
      rfl
  have hgrid : (textGrid dict stdin).map (fun r => [Value.str r.1, Value.str r.2]) =
      [.str "Acronym".toList,
        .str "Definition".toList] :: (inputWords stdin).map (tableRow dict) := by
    rw [textGrid, List.map_cons, ← hrows]
  rw [hgrid] at htable
  rw [rstTable]
  exact congrArg (· >>= fun table => pure (table ++ ['\n'])) htable

/-- The rows of a table without newlines in its cells. -/
theorem printedRows_layout {w₀ w₁ : ℕ} {grid : List (Str × Str)}
    (h : ∀ r ∈ grid, '\n' ∉ r.1 ∧ '\n' ∉ r.2) :
    printedRows (unlines (layout w₀ w₁ grid).lines ++ ['\n']) =
      grid.map fun r => rowLine w₀ w₁ r.1 r.2 := by
  have hlines : textLines (unlines (layout w₀ w₁ grid).lines ++ ['\n']) =
      (layout w₀ w₁ grid).lines ++ [[]] := by
    have hunlines : unlines (layout w₀ w₁ grid).lines ++ ['\n'] =
        unlines ((layout w₀ w₁ grid).lines ++ [[]]) := by
      simp [unlines]
    rw [hunlines]
    apply textLines_unlines
    intro line hline
    rcases List.mem_append.mp hline with hline | hline
    · exact newline_notMem_layout h line hline
    · rw [List.mem_singleton.mp hline]
      exact List.not_mem_nil
  -- a divider starts with a plus
  have hdivider : ∀ flag, (dividerLine w₀ w₁ flag).head? ≠ some '|' := by
    intro flag
    rw [dividerLine, Columns.ruled_cons, List.head?_cons]
    decide
  have hbody : ∀ flag, ((body w₀ w₁ flag grid).flatMap fun r => [r.1, r.2]).filter
      (fun line => decide (line.head? = some '|')) = grid.map fun r => rowLine w₀ w₁ r.1 r.2 := by
    clear hlines h
    induction grid with
    | nil => exact fun _ => rfl
    | cons r grid ih =>
      intro flag
      have hrow : (rowLine w₀ w₁ r.1 r.2).head? = some '|' := rfl
      rw [body, List.flatMap_cons, List.filter_append, ih, List.filter_cons_of_pos (by simp [hrow]),
        List.filter_cons_of_neg (by simp [hdivider])]
      rfl
  rw [printedRows, hlines, List.filter_append, Layout.lines, layout,
    List.filter_cons_of_neg (by simp [hdivider]), hbody]
  simp

theorem isRowOf_rowLine {w₀ w₁ : ℕ} {word : Str}
    (h : ∀ v, dict.get? word = some v → ∃ s, v = .str s) :
    IsRowOf dict word (rowLine w₀ w₁ word (definitionText dict word)) := by
  refine ⟨w₀ - 1 - word.length, definitionText dict word ++
    List.replicate (w₁ - 1 - (definitionText dict word).length) ' ', ?_, ?_⟩
  · simp [rowLine, Columns.ruled_cons, Columns.ruled_nil]
  · cases hvalue : dict.get? word with
    | none =>
      have hempty : definitionText dict word = [] := by rw [definitionText, hvalue]
      rw [hempty]
      simp
    | some v =>
      obtain ⟨s, rfl⟩ := h v hvalue
      have htext : definitionText dict word = s := by rw [definitionText, hvalue]
      rw [htext]
      intro d hd
      rw [List.mem_singleton.mp hd]
      exact (List.prefix_append _ _).isInfix

/-- What `acronym` prints for a word has its definitions at the ends of lines. -/
theorem exists_suffix_of_mem_definitions {line : Str} {v : Value}
    (hvalue : dict.get? (strip History.isSpace line) = some v) {d : Str} (hd : d ∈ v.definitions) :
    ∃ printed ∈ acronymLines dict line, d <:+ printed := by
  rw [acronymLines, hvalue]
  cases v with
  | str s =>
    rw [List.mem_singleton.mp hd]
    exact ⟨_, List.mem_singleton_self _, List.suffix_append _ _⟩
  | list l =>
    exact ⟨_, List.mem_cons_of_mem _ (List.mem_map_of_mem hd), List.suffix_append _ _⟩

theorem exists_of_forall₂ {α β : Type*} {R : α → β → Prop} {l : List α} {m : List β}
    (h : List.Forall₂ R l m) {a : α} (ha : a ∈ l) : ∃ b ∈ m, R a b := by
  induction h with
  | nil => cases ha
  | @cons a' b l m hab _ ih =>
    rcases List.mem_cons.mp ha with rfl | ha
    · exact ⟨b, List.mem_cons_self, hab⟩
    · obtain ⟨b', hb', hR⟩ := ih ha
      exact ⟨b', List.mem_cons_of_mem b hb', hR⟩

/-- Texts without newlines make lines of a table. -/
theorem newline_notMem_textGrid (h : ∀ word ∈ inputWords stdin, ∀ v,
    dict.get? word = some v → ∃ s, v = .str s ∧ '\n' ∉ s) :
    ∀ r ∈ textGrid dict stdin, '\n' ∉ r.1 ∧ '\n' ∉ r.2 := by
  intro r hr
  rcases List.mem_cons.mp hr with rfl | hr
  · decide
  · obtain ⟨word, hword, rfl⟩ := List.mem_map.mp hr
    refine ⟨newline_notMem_of_mem_inputWords hword, ?_⟩
    dsimp only
    rw [definitionText]
    split
    · next s hvalue =>
      obtain ⟨s', hs', hnewline⟩ := h word hword _ hvalue
      cases hs'
      exact hnewline
    · exact List.not_mem_nil

/-- **There is a row for every word, with all of its definitions, exactly if the words
that are in the dictionary have texts without newlines for values.** -/
theorem tabulates_iff : Tabulates dict stdin ↔ ∀ word ∈ inputWords stdin, ∀ v,
    dict.get? word = some v → ∃ s, v = .str s ∧ '\n' ∉ s := by
  constructor
  · rintro ⟨table, htable, header, rows, hrows, hall⟩ word hword v hvalue
    cases v with
    | list l =>
      rw [rstTable_of_list hword hvalue] at htable
      cases htable
    | str s =>
      refine ⟨s, rfl, ?_⟩
      obtain ⟨row, hrow, n, cell, heq, hcell⟩ := exists_of_forall₂ hall hword
      rw [hvalue] at hcell
      intro hnewline
      -- the newline is in a line of the table
      have hmem : row ∈ printedRows table := by
        rw [hrows]
        exact List.mem_cons_of_mem header hrow
      apply newline_notMem_of_mem_textLines (List.mem_of_mem_filter hmem)
      have hin : '\n' ∈ cell := (hcell s List.mem_cons_self).subset hnewline
      rw [heq]
      simp [hin]
  · intro h
    have htexts : ∀ word ∈ inputWords stdin, ∀ v, dict.get? word = some v → ∃ s, v = .str s := by
      intro word hword v hvalue
      obtain ⟨s, hs, -⟩ := h word hword v hvalue
      exact ⟨s, hs⟩
    obtain ⟨w₀, w₁, htable⟩ := rstTable_of_texts htexts
    refine ⟨_, htable, ?_⟩
    rw [printedRows_layout (newline_notMem_textGrid h), textGrid, List.map_cons, List.map_map]
    refine ⟨_, _, rfl, ?_⟩
    rw [List.forall₂_map_right_iff, List.forall₂_same]
    exact fun word hword => isRowOf_rowLine (htexts word hword)

end Words

/-- Two definitions, as the dictionary of the repository has them. -/
def continuousIntegration : Dict Str Value :=
  Dict.empty.set "CI".toList (.list ["Critical Items".toList, "Continuous Integration".toList])

/-- The list stops the program. -/
theorem not_tabulates : ¬ Tabulates continuousIntegration "CI\n".toList := by
  rintro ⟨table, htable, -⟩
  have hword : "CI".toList ∈ inputWords "CI\n".toList := by decide
  have hvalue : continuousIntegration.get? "CI".toList =
      some (.list ["Critical Items".toList, "Continuous Integration".toList]) :=
        Dict.get?_set_self _ _ _
  rw [rstTable_of_list hword hvalue] at htable
  cases htable

end RstTable
end Dfuser
