import Mathlib.Algebra.GroupWithZero.Nat
import Mathlib.Data.List.DropRight
import Dfuser.Lib.Joined

/-!
# Lines ruled into columns

A line of a table: cells with a separator before each of them and one behind the last.
Where the separators stand depends on the widths of the cells alone, when none has the
separator in it; cells are made as wide as their column with a filling at their ends.

## Main definitions

* `ruled` — the line of some cells.
* `stops` — the places of the separators, for cells of some widths.
* `cellsOf` — the texts between the separators of a line.
* `strip` — a text without the fillings around it.

## Main results

* `idxsOf_ruled` — **where the separators are.**
* `cellsOf_ruled` — the cells come back.
* `strip_append_replicate` — a filling is no part of a cell.
-/

namespace Dfuser
namespace Columns

open Dfuser.Joined (spell spell_cons)

section

variable {α : Type*}

/-- Cells between separators, with one at either end. -/
def ruled (sep : α) (cells : List (List α)) : List α := spell sep cells ++ [sep]

theorem ruled_nil (sep : α) : ruled sep [] = [sep] := rfl

theorem ruled_cons (sep : α) (cell : List α) (cells : List (List α)) :
    ruled sep (cell :: cells) = sep :: (cell ++ ruled sep cells) := by
  rw [ruled, spell_cons, ruled, List.cons_append, List.append_assoc]

theorem length_ruled (sep : α) (cells : List (List α)) :
    (ruled sep cells).length = (cells.map fun cell => cell.length + 1).sum + 1 := by
  induction cells with
  | nil => rfl
  | cons cell cells ih =>
    rw [ruled_cons, List.length_cons, List.length_append, ih, List.map_cons, List.sum_cons]
    omega

theorem mem_ruled {sep c : α} {cells : List (List α)} :
    c ∈ ruled sep cells ↔ c = sep ∨ ∃ cell ∈ cells, c ∈ cell := by
  induction cells with
  | nil => simp [ruled_nil]
  | cons cell cells ih =>
    rw [ruled_cons, List.mem_cons, List.mem_append, ih]
    simp only [List.mem_cons, exists_eq_or_imp]
    tauto

/-- The places of the separators between cells of these widths; the first is at `n`. -/
def stops : ℕ → List ℕ → List ℕ
  | n, [] => [n]
  | n, w :: ws => n :: stops (n + 1 + w) ws

variable [BEq α] [LawfulBEq α] {sep : α}

theorem idxsOf_of_notMem {cell : List α} (h : sep ∉ cell) (n : ℕ) : cell.idxsOf sep n = [] := by
  rw [List.idxsOf_eq_nil_iff]
  intro c hc
  rw [beq_eq_false_iff_ne]
  rintro rfl
  exact h hc

/-- **The separators of a line are where the widths of its cells put them.** -/
theorem idxsOf_ruled {cells : List (List α)} (h : ∀ cell ∈ cells, sep ∉ cell) (n : ℕ) :
    (ruled sep cells).idxsOf sep n = stops n (cells.map List.length) := by
  induction cells generalizing n with
  | nil => simp [ruled_nil, stops]
  | cons cell cells ih =>
    obtain ⟨hcell, hcells⟩ := List.forall_mem_cons.mp h
    rw [ruled_cons, List.idxsOf_cons, beq_self_eq_true, if_pos rfl, List.idxsOf_append,
      idxsOf_of_notMem hcell, List.nil_append, ih hcells]
    rfl

/-- The texts between the separators of a line, without what is outside of the first and
the last separator. -/
def cellsOf (sep : α) (line : List α) : List (List α) := (line.splitOn sep).tail.dropLast

theorem splitOn_append_ruled {cells : List (List α)} (h : ∀ cell ∈ cells, sep ∉ cell) {t : List α}
    (ht : sep ∉ t) : (t ++ ruled sep cells).splitOn sep = t :: cells ++ [[]] := by
  induction cells generalizing t with
  | nil =>
    rw [ruled_nil, List.splitOn_append_cons_self_of_not_mem ht, List.splitOn_nil]
    rfl
  | cons cell cells ih =>
    obtain ⟨hcell, hcells⟩ := List.forall_mem_cons.mp h
    rw [ruled_cons, List.splitOn_append_cons_self_of_not_mem ht, ih hcells hcell]
    rfl

/-- The cells come back from their line. -/
theorem cellsOf_ruled {cells : List (List α)} (h : ∀ cell ∈ cells, sep ∉ cell) :
    cellsOf sep (ruled sep cells) = cells := by
  have hsplit := splitOn_append_ruled h (List.not_mem_nil (a := sep))
  rw [List.nil_append] at hsplit
  rw [cellsOf, hsplit, List.cons_append, List.tail_cons, List.dropLast_concat]

end

/-! ### Fillings -/

section

variable {α : Type*} {p : α → Bool} {c : α}

/-- A text without what `p` holds of at its two ends. -/
def strip (p : α → Bool) (s : List α) : List α := (s.dropWhile p).rdropWhile p

theorem strip_cons_of_pos (hc : p c = true) (s : List α) : strip p (c :: s) = strip p s := by
  rw [strip, List.dropWhile_cons_of_pos hc, strip]

theorem rdropWhile_append_replicate (hc : p c = true) (s : List α) (n : ℕ) :
    (s ++ List.replicate n c).rdropWhile p = s.rdropWhile p := by
  induction n with
  | zero => simp
  | succ n ih =>
    rw [List.replicate_succ', ← List.append_assoc, List.rdropWhile_concat_pos _ _ _ hc, ih]

/-- A filling behind a text is no part of it. -/
theorem strip_append_replicate (hc : p c = true) (s : List α) (n : ℕ) :
    strip p (s ++ List.replicate n c) = strip p s := by
  have hfill : (List.replicate n c).dropWhile p = [] := by
    rw [List.dropWhile_eq_nil_iff]
    intro d hd
    rw [List.eq_of_mem_replicate hd, hc]
  rw [strip, List.dropWhile_append, strip]
  split
  · next hnil =>
    rw [hfill, List.isEmpty_iff.mp hnil]
  · exact rdropWhile_append_replicate hc _ n

/-- What is left of a text is part of it. -/
theorem strip_sublist (p : α → Bool) (s : List α) : (strip p s).Sublist s :=
  (List.rdropWhile_prefix p _).sublist.trans (List.dropWhile_sublist p)

theorem mem_of_mem_strip {d : α} {s : List α} (h : d ∈ strip p s) : d ∈ s :=
  (strip_sublist p s).subset h

theorem rdropWhile_append (s t : List α) :
    (s ++ t).rdropWhile p =
      if t.rdropWhile p = [] then s.rdropWhile p else s ++ t.rdropWhile p := by
  simp only [List.rdropWhile, List.reverse_append, List.dropWhile_append, List.isEmpty_iff,
    List.reverse_eq_nil_iff]
  split
  · rfl
  · rw [List.reverse_append, List.reverse_reverse]

/-- Nothing is taken away at the front of a text that does not start with it. -/
theorem dropWhile_eq_self_iff {s : List α} :
    s.dropWhile p = s ↔ ∀ d ∈ s.head?, p d = false := by
  cases s with
  | nil => simp
  | cons d s =>
    cases hd : p d with
    | false => simp [hd]
    | true =>
      have hlt : ((d :: s).dropWhile p).length < (d :: s).length := by
        rw [List.dropWhile_cons_of_pos hd]
        exact Nat.lt_succ_of_le (List.dropWhile_sublist p).length_le
      constructor
      · intro h
        rw [h] at hlt
        exact absurd hlt (lt_irrefl _)
      · intro h
        rw [h d rfl] at hd
        cases hd

theorem rdropWhile_eq_self_iff {s : List α} :
    s.rdropWhile p = s ↔ ∀ d ∈ s.getLast?, p d = false := by
  rw [List.rdropWhile, List.reverse_eq_iff, dropWhile_eq_self_iff, List.head?_reverse]

/-- A text with nothing to be taken away at its two ends. -/
theorem strip_eq_self_iff {s : List α} :
    strip p s = s ↔ (∀ d ∈ s.head?, p d = false) ∧ ∀ d ∈ s.getLast?, p d = false := by
  constructor
  · intro h
    have hlength := congrArg List.length h
    have hfront := (List.dropWhile_sublist p (l := s)).length_le
    have hback := (List.rdropWhile_prefix p (l := s.dropWhile p)).length_le
    rw [strip] at hlength
    have hdrop : s.dropWhile p = s :=
      (List.dropWhile_sublist p).eq_of_length (by omega)
    rw [strip, hdrop] at h
    exact ⟨dropWhile_eq_self_iff.mp hdrop, rdropWhile_eq_self_iff.mp h⟩
  · rintro ⟨hhead, hlast⟩
    rw [strip, dropWhile_eq_self_iff.mpr hhead, rdropWhile_eq_self_iff.mpr hlast]

@[simp] theorem strip_strip (p : α → Bool) (s : List α) : strip p (strip p s) = strip p s := by
  refine strip_eq_self_iff.mpr ⟨?_, ?_⟩
  · -- what is left starts where the front has been taken away
    intro d hd
    have hpre := List.rdropWhile_prefix p (l := s.dropWhile p)
    obtain ⟨t, ht⟩ := hpre
    rw [Option.mem_def, List.head?_eq_some_iff] at hd
    obtain ⟨u, hu⟩ := hd
    rw [strip] at hu
    have hhead : (s.dropWhile p).head? = some d := by
      rw [← ht, hu]
      rfl
    have hself : (s.dropWhile p).dropWhile p = s.dropWhile p := List.dropWhile_idempotent p s
    exact dropWhile_eq_self_iff.mp hself d hhead
  · have hself : (strip p s).rdropWhile p = strip p s := List.rdropWhile_idempotent p _
    exact rdropWhile_eq_self_iff.mp hself

end

end Columns
end Dfuser
