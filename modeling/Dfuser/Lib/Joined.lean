import Mathlib.Data.List.Basic
import Mathlib.Data.Set.Function

/-!
# Paths spelled with a separator

A path is a sequence of components, and its spelling is one text: every component
after a separator.  The spelling forgets where a component ends when a component may
contain the separator itself.  Two paths of a set are then spelled alike only if they
part at two siblings of which one is the other, a separator, and more.

* `Joined.spell` — the spelling of a path.
* `Joined.Overlaps` — two paths of a set that part at such siblings and meet again.
* `Joined.injOn_spell_iff` — **the spelling tells the paths of a set apart exactly if
  none overlap.**
-/

namespace Dfuser
namespace Joined

variable {α : Type*} (sep : α)

/-- The components of a path, each after a separator. -/
def spell (path : List (List α)) : List α := path.flatMap (sep :: ·)

@[simp] theorem spell_nil : spell sep [] = [] := rfl

@[simp] theorem spell_cons (name : List α) (path : List (List α)) :
    spell sep (name :: path) = sep :: (name ++ spell sep path) := by
  simp [spell]

@[simp] theorem spell_append (p q : List (List α)) :
    spell sep (p ++ q) = spell sep p ++ spell sep q := by
  simp [spell]

theorem intercalate_cons_eq (name : List α) (path : List (List α)) :
    [sep].intercalate (name :: path) = name ++ spell sep path := by
  induction path generalizing name with
  | nil => simp
  | cons n path ih => rw [List.intercalate_cons_cons, ih, spell_cons, List.append_assoc]; rfl

/-- A path continued below a directory that has a name. -/
theorem intercalate_append {names : List (List α)} (h : names ≠ []) (path : List (List α)) :
    [sep].intercalate (names ++ path) = [sep].intercalate names ++ spell sep path := by
  cases names with
  | nil => exact absurd rfl h
  | cons n names =>
    rw [List.cons_append, intercalate_cons_eq, intercalate_cons_eq, spell_append, List.append_assoc]

/-- What is in a text, but for the separators, is in one of its parts. -/
theorem exists_mem_splitOn {α : Type*} [BEq α] [LawfulBEq α] {sep c : α} {s : List α}
    (hsep : c ≠ sep) (hc : c ∈ s) : ∃ part ∈ s.splitOn sep, c ∈ part := by
  obtain ⟨part, parts, hparts⟩ := List.exists_cons_of_ne_nil (List.splitOn_ne_nil sep s)
  have hjoined : part ++ spell sep parts = s := by
    rw [← intercalate_cons_eq, ← hparts, List.intercalate_splitOn]
  rw [hparts]
  rw [← hjoined, List.mem_append, spell, List.mem_flatMap] at hc
  rcases hc with hc | ⟨part', hmem, hc⟩
  · exact ⟨part, List.mem_cons_self, hc⟩
  · exact ⟨part', List.mem_cons_of_mem _ hmem, (List.mem_cons.mp hc).resolve_left hsep⟩

/-- Some directory holds `a` and the sibling `a`, separator, `x`, and what is left of
a path through the first is spelled like `x` with what is left of a path through the
second. -/
def Overlaps (paths : Set (List (List α))) : Prop :=
  ∃ dir a x p q, dir ++ a :: p ∈ paths ∧ dir ++ (a ++ sep :: x) :: q ∈ paths ∧
    p ≠ [] ∧ spell sep p = spell sep (x :: q)

variable {sep}

/-- What is spelled like a text and a path begins inside the text, with a separator. -/
theorem exists_of_spell_eq_append {c : List α} {p q : List (List α)} (hc : c ≠ [])
    (h : spell sep p = c ++ spell sep q) :
    ∃ x, c = sep :: x ∧ p ≠ [] ∧ spell sep p = spell sep (x :: q) := by
  cases p with
  | nil => exact absurd (List.append_eq_nil_iff.mp h.symm).1 hc
  | cons n p =>
    cases c with
    | nil => exact absurd rfl hc
    | cons y x =>
      obtain rfl : sep = y := by
        rw [spell_cons, List.cons_append, List.cons.injEq] at h
        exact h.1
      exact ⟨x, rfl, List.cons_ne_nil _ _, by rw [h, spell_cons, List.cons_append]⟩

/-- Where two paths that are spelled alike part. -/
theorem exists_of_spell_eq {p q : List (List α)} (h : spell sep p = spell sep q) (hne : p ≠ q) :
    ∃ dir a x p' q', p' ≠ [] ∧ spell sep p' = spell sep (x :: q') ∧
      ((p = dir ++ a :: p' ∧ q = dir ++ (a ++ sep :: x) :: q') ∨
        (q = dir ++ a :: p' ∧ p = dir ++ (a ++ sep :: x) :: q')) := by
  induction p generalizing q with
  | nil =>
    cases q with
    | nil => exact absurd rfl hne
    | cons b q => simp at h
  | cons a p ih =>
    cases q with
    | nil => simp at h
    | cons b q =>
      have htexts : a ++ spell sep p = b ++ spell sep q := by simpa using h
      by_cases hab : a = b
      · subst hab
        have hrest : p ≠ q := fun hpq => hne (by rw [hpq])
        obtain ⟨dir, c, x, p', q', hp', hspell, hpart⟩ :=
          ih (List.append_cancel_left htexts) hrest
        refine ⟨a :: dir, c, x, p', q', hp', hspell, ?_⟩
        simpa using hpart
      · -- one component is a proper start of the other
        rcases List.append_eq_append_iff.mp htexts with ⟨c, hb, hp⟩ | ⟨c, ha, hq⟩
        · have hc : c ≠ [] := by
            intro hnil
            exact hab (by simpa [hnil] using hb.symm)
          obtain ⟨x, rfl, hp', hspell⟩ := exists_of_spell_eq_append hc hp
          exact ⟨[], a, x, p, q, hp', hspell, .inl ⟨rfl, by rw [hb]; rfl⟩⟩
        · have hc : c ≠ [] := by
            intro hnil
            exact hab (by simpa [hnil] using ha)
          obtain ⟨x, rfl, hq', hspell⟩ := exists_of_spell_eq_append hc hq
          exact ⟨[], b, x, q, p, hq', hspell, .inr ⟨rfl, by rw [ha]; rfl⟩⟩

/-- **The spelling tells the paths of a set apart exactly if none overlap.** -/
theorem injOn_spell_iff {paths : Set (List (List α))} :
    Set.InjOn (spell sep) paths ↔ ¬ Overlaps sep paths := by
  constructor
  · intro hinj hover
    obtain ⟨dir, a, x, p, q, hp, hq, _, hspell⟩ := hover
    have hsame : dir ++ a :: p = dir ++ (a ++ sep :: x) :: q := by
      apply hinj hp hq
      rw [spell_append, spell_cons, hspell]
      simp
    have hnames := List.append_cancel_left hsame
    simp at hnames
  · intro hover p hp q hq hspell
    by_contra hne
    obtain ⟨dir, a, x, p', q', hp', hrest, hpart⟩ := exists_of_spell_eq hspell hne
    apply hover
    rcases hpart with ⟨rfl, rfl⟩ | ⟨rfl, rfl⟩
    · exact ⟨dir, a, x, p', q', hp, hq, hp', hrest⟩
    · exact ⟨dir, a, x, p', q', hq, hp, hp', hrest⟩

/-- Paths without the separator in their components do not overlap. -/
theorem not_overlaps_of_not_mem {paths : Set (List (List α))}
    (h : ∀ path ∈ paths, ∀ name ∈ path, sep ∉ name) : ¬ Overlaps sep paths := by
  intro hover
  obtain ⟨dir, a, x, p, q, _, hq, _⟩ := hover
  have hmem : a ++ sep :: x ∈ dir ++ (a ++ sep :: x) :: q := by simp
  apply h _ hq _ hmem
  simp

end Joined
end Dfuser
