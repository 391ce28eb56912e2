import Mathlib.Data.List.Basic
import Mathlib.Data.List.Nodup

/-!
# Directory trees as listings

A finite directory tree, as a program sees it that lists a directory and asks of
every name whether it is a directory: a listing is a sequence of files and
directories, and a directory has a listing of its own.

An entry is identified by its path, the names from the root of the tree down to it.
`Listing.select` enumerates the entries down to a depth, in the order of a walk that
enters a directory right after reporting it, skipping what the walk does not enter or
keep; `mem_select_iff` says which entries these are without mentioning the walk.

* `Listing`, `Listing.Has` — the trees and the entries in them.
* `Listing.Unique` — no directory lists a name twice.
* `Listing.mem_select_iff`, `Listing.nodup_select` — the walk reports exactly the
  entries it should, each once.
-/

namespace Dfuser

/-- What a name in a directory can be. -/
inductive Kind
  | file
  | dir
  deriving DecidableEq, Repr

/-- The contents of a directory, in the order they are listed. -/
inductive Listing (α : Type*)
  | nil
  | file (name : α) (rest : Listing α)
  | dir (name : α) (contents rest : Listing α)
  deriving DecidableEq, Repr

namespace Listing

variable {α : Type*}

/-- The tree has an entry of kind `k` at a path. -/
inductive Has : Listing α → List α → Kind → Prop
  | file (name : α) (rest : Listing α) : Has (.file name rest) [name] .file
  | dir (name : α) (contents rest : Listing α) : Has (.dir name contents rest) [name] .dir
  | inside {contents : Listing α} {path : List α} {k : Kind} (name : α) (rest : Listing α) :
      Has contents path k → Has (.dir name contents rest) (name :: path) k
  | afterFile {rest : Listing α} {path : List α} {k : Kind} (name : α) :
      Has rest path k → Has (.file name rest) path k
  | afterDir {rest : Listing α} {path : List α} {k : Kind} (name : α) (contents : Listing α) :
      Has rest path k → Has (.dir name contents rest) path k

/-- The names listed, without those in subdirectories. -/
def names : Listing α → List α
  | .nil => []
  | .file name rest => name :: rest.names
  | .dir name _ rest => name :: rest.names

/-- No directory of the tree lists a name twice. -/
def Unique : Listing α → Prop
  | .nil => True
  | .file name rest => name ∉ rest.names ∧ rest.Unique
  | .dir name contents rest => name ∉ rest.names ∧ contents.Unique ∧ rest.Unique

instance decidableUnique [DecidableEq α] : (l : Listing α) → Decidable l.Unique
  | .nil => .isTrue trivial
  | .file _ rest =>
    haveI := decidableUnique rest
    inferInstanceAs (Decidable (_ ∧ _))
  | .dir _ contents rest =>
    haveI := decidableUnique contents
    haveI := decidableUnique rest
    inferInstanceAs (Decidable (_ ∧ _ ∧ _))

@[simp] theorem not_has_nil (path : List α) (k : Kind) : ¬ (nil : Listing α).Has path k := by
  rintro ⟨⟩

theorem has_file_iff {name : α} {rest : Listing α} {path : List α} {k : Kind} :
    (file name rest).Has path k ↔ (path = [name] ∧ k = .file) ∨ rest.Has path k := by
  constructor
  · intro h
    cases h with
    | file => exact .inl ⟨rfl, rfl⟩
    | afterFile _ h => exact .inr h
  · rintro (⟨rfl, rfl⟩ | h)
    · exact .file name rest
    · exact .afterFile name h

theorem has_dir_iff {name : α} {contents rest : Listing α} {path : List α} {k : Kind} :
    (dir name contents rest).Has path k ↔
      (path = [name] ∧ k = .dir) ∨
        (∃ p, path = name :: p ∧ contents.Has p k) ∨ rest.Has path k := by
  constructor
  · intro h
    cases h with
    | dir => exact .inl ⟨rfl, rfl⟩
    | inside _ _ h => exact .inr (.inl ⟨_, rfl, h⟩)
    | afterDir _ _ h => exact .inr (.inr h)
  · rintro (⟨rfl, rfl⟩ | ⟨p, rfl, h⟩ | h)
    · exact .dir name contents rest
    · exact .inside name rest h
    · exact .afterDir name contents h

theorem Has.ne_nil {l : Listing α} {path : List α} {k : Kind} (h : l.Has path k) : path ≠ [] := by
  induction h with
  | file => simp
  | dir => simp
  | inside => simp
  | afterFile _ _ ih => exact ih
  | afterDir _ _ _ ih => exact ih

/-- The first name of an entry is listed at the top. -/
theorem Has.head_mem_names {l : Listing α} {name : α} {path : List α} {k : Kind}
    (h : l.Has (name :: path) k) : name ∈ l.names := by
  induction l with
  | nil => exact absurd h (not_has_nil _ _)
  | file n rest ih =>
    rcases has_file_iff.mp h with ⟨hpath, -⟩ | h
    · simp only [List.cons.injEq] at hpath
      simp [names, hpath.1]
    · exact List.mem_cons_of_mem n (ih h)
  | dir n contents rest _ ih =>
    rcases has_dir_iff.mp h with ⟨hpath, -⟩ | ⟨p, hpath, -⟩ | h
    · simp only [List.cons.injEq] at hpath
      simp [names, hpath.1]
    · simp only [List.cons.injEq] at hpath
      simp [names, hpath.1]
    · exact List.mem_cons_of_mem n (ih h)

/-- What has an entry in it is a directory. -/
theorem Has.parent {l : Listing α} {path : List α} {name : α} {k : Kind}
    (h : l.Has (path ++ [name]) k) (hpath : path ≠ []) : l.Has path .dir := by
  induction l generalizing path with
  | nil => exact absurd h (not_has_nil _ _)
  | file n rest ih =>
    rcases has_file_iff.mp h with ⟨hone, _⟩ | h
    · cases path with
      | nil => exact absurd rfl hpath
      | cons m path => simp at hone
    · exact .afterFile n (ih h hpath)
  | dir n contents rest ihc ih =>
    rcases has_dir_iff.mp h with ⟨hone, _⟩ | ⟨p, hp, h⟩ | h
    · cases path with
      | nil => exact absurd rfl hpath
      | cons m path => simp at hone
    · cases path with
      | nil => exact absurd rfl hpath
      | cons m path =>
        obtain ⟨rfl, rfl⟩ : m = n ∧ path ++ [name] = p := by simpa using hp
        cases path with
        | nil => exact .dir m contents rest
        | cons m' path => exact .inside m rest (ihc h (List.cons_ne_nil m' path))
    · exact .afterDir n contents (ih h hpath)

/-! ### Walks -/

/-- The entries down to depth `depth` that a walk reports, when it passes over the
names `enter` refuses and the files `keep` refuses. -/
def select (enter keep : α → Bool) : Listing α → ℕ → List (List α × Kind)
  | .nil, _ => []
  | .file name rest, depth =>
    (if 0 < depth ∧ enter name ∧ keep name then [([name], .file)] else []) ++
      rest.select enter keep depth
  | .dir name contents rest, depth =>
    (if 0 < depth ∧ enter name then
      ([name], .dir) :: (contents.select enter keep (depth - 1)).map fun e => (name :: e.1, e.2)
    else []) ++ rest.select enter keep depth

variable (enter keep : α → Bool)

@[simp] theorem select_zero (l : Listing α) : l.select enter keep 0 = [] := by
  induction l with
  | nil => rfl
  | file name rest ih => simp [select, ih]
  | dir name contents rest _ ih => simp [select, ih]

theorem mem_select_file {name : α} {rest : Listing α} {depth : ℕ} {path : List α} {k : Kind} :
    (path, k) ∈ (file name rest).select enter keep depth ↔
      ((0 < depth ∧ enter name = true ∧ keep name = true) ∧ path = [name] ∧ k = .file) ∨
        (path, k) ∈ rest.select enter keep depth := by
  rw [select, List.mem_append]
  refine or_congr_left ?_
  split
  · next h => simp [h]
  · next h => simp [h]

theorem mem_select_dir {name : α} {contents rest : Listing α} {depth : ℕ} {path : List α}
    {k : Kind} :
    (path, k) ∈ (dir name contents rest).select enter keep depth ↔
      ((0 < depth ∧ enter name = true) ∧
        ((path = [name] ∧ k = .dir) ∨
          ∃ p, path = name :: p ∧ (p, k) ∈ contents.select enter keep (depth - 1))) ∨
        (path, k) ∈ rest.select enter keep depth := by
  rw [select, List.mem_append]
  refine or_congr_left ?_
  split
  · next h =>
    simp only [h, and_self, true_and, List.mem_cons, List.mem_map, Prod.mk.injEq, Prod.exists]
    refine or_congr_right ⟨?_, ?_⟩
    · rintro ⟨p, k', hp, rfl, rfl⟩
      exact ⟨p, rfl, hp⟩
    · rintro ⟨p, rfl, hp⟩
      exact ⟨p, k, hp, rfl, rfl⟩
  · next h => simp [h]

/-- **What a walk reports**: the entries of the tree down to its depth none of whose
names it refuses to enter, files only if it keeps them. -/
theorem mem_select_iff (l : Listing α) (depth : ℕ) (path : List α) (k : Kind) :
    (path, k) ∈ l.select enter keep depth ↔
      l.Has path k ∧ path.length ≤ depth ∧ (∀ name ∈ path, enter name = true) ∧
        (k = .file → ∀ name ∈ path.getLast?, keep name = true) := by
  induction l generalizing depth path with
  | nil => simp [select]
  | file n rest ih =>
    rw [mem_select_file, has_file_iff, ih, or_and_right]
    refine or_congr_left ?_
    constructor
    · rintro ⟨⟨hd, he, hk⟩, rfl, rfl⟩
      exact ⟨⟨rfl, rfl⟩, hd, by simpa using he, by simpa using hk⟩
    · rintro ⟨⟨rfl, rfl⟩, hd, he, hk⟩
      exact ⟨⟨hd, by simpa using he, by simpa using hk⟩, rfl, rfl⟩
  | dir n contents rest ihc ih =>
    rw [mem_select_dir, has_dir_iff, ih, ← or_assoc, or_and_right]
    refine or_congr_left ?_
    constructor
    · rintro ⟨⟨hd, he⟩, ⟨rfl, rfl⟩ | ⟨p, rfl, hp⟩⟩
      · exact ⟨.inl ⟨rfl, rfl⟩, hd, by simpa using he, by simp⟩
      · obtain ⟨hhas, hlen, hall, hkeep⟩ := (ihc (depth - 1) p).mp hp
        refine ⟨.inr ⟨p, rfl, hhas⟩, ?_, ?_, ?_⟩
        · rw [List.length_cons]; omega
        · simpa [he] using hall
        · rwa [List.getLast?_cons_of_ne_nil hhas.ne_nil]
    · rintro ⟨⟨rfl, rfl⟩ | ⟨p, rfl, hhas⟩, hlen, hall, hkeep⟩
      · exact ⟨⟨hlen, by simpa using hall⟩, .inl ⟨rfl, rfl⟩⟩
      · rw [List.length_cons] at hlen
        rw [List.forall_mem_cons] at hall
        rw [List.getLast?_cons_of_ne_nil hhas.ne_nil] at hkeep
        exact ⟨⟨by omega, hall.1⟩, .inr ⟨p, rfl, (ihc _ p).mpr ⟨hhas, by omega, hall.2, hkeep⟩⟩⟩

theorem head_mem_names_of_mem_select {l : Listing α} {depth : ℕ} {name : α} {path : List α}
    (h : name :: path ∈ (l.select enter keep depth).map Prod.fst) : name ∈ l.names := by
  obtain ⟨⟨p, k⟩, hmem, hp⟩ := List.mem_map.mp h
  simp only at hp
  subst hp
  exact ((mem_select_iff enter keep l depth _ k).mp hmem).1.head_mem_names

/-- In a tree without repeated names no path is reported twice. -/
theorem nodup_select {l : Listing α} (h : l.Unique) (depth : ℕ) :
    ((l.select enter keep depth).map Prod.fst).Nodup := by
  induction l generalizing depth with
  | nil => exact List.nodup_nil
  | file n rest ih =>
    rw [select]
    split
    · rw [List.map_append, List.map_singleton, List.singleton_append, List.nodup_cons]
      exact ⟨fun hmem => h.1 (head_mem_names_of_mem_select enter keep hmem), ih h.2 depth⟩
    · exact ih h.2 depth
  | dir n contents rest ihc ih =>
    obtain ⟨hn, hc, hr⟩ := h
    rw [select]
    split
    · have hmap : ((contents.select enter keep (depth - 1)).map fun e =>
        (n :: e.1, e.2)).map Prod.fst =
          ((contents.select enter keep (depth - 1)).map Prod.fst).map (n :: ·) := by
        simp
      rw [List.map_append, List.map_cons, hmap]
      refine List.Nodup.append (List.nodup_cons.mpr ⟨?_, ?_⟩) (ih hr depth) ?_
      · -- the directory itself has a shorter path than anything in it
        intro hmem
        obtain ⟨p, hp, hnil⟩ := List.mem_map.mp hmem
        obtain ⟨⟨q, k⟩, hq, rfl⟩ := List.mem_map.mp hp
        simp only [List.cons.injEq, true_and] at hnil
        exact ((mem_select_iff enter keep contents _ q k).mp hq).1.ne_nil hnil
      · exact (ihc hc _).map (List.cons_injective)
      · -- a path after the directory starts with another name
        intro p hp hrest
        rcases List.mem_cons.mp hp with rfl | hp
        · exact hn (head_mem_names_of_mem_select enter keep hrest)
        · obtain ⟨q, -, rfl⟩ := List.mem_map.mp hp
          exact hn (head_mem_names_of_mem_select enter keep hrest)
    · exact ih hr depth

end Listing
end Dfuser
