import Dfuser.Lib.Coreutils

/-!
# Paths without links

`realpath` prints the path that a text leads to, from the root and with all links followed.  For
a directory this text leads back to it, wherever it is read, and no two directories have the
same one.

## Main definitions

* `realpath` — `realpath` on some operands.

## Main results

* `FileSystem.resolve_pathText` — **the text of a directory's path leads to it**, without any
  links.
* `pathText_inj` — paths with the same text are the same.
* `realpath_of_resolve` — what `realpath` prints where a text leads to something.
-/

namespace Dfuser

open FileSystem

/-- `$(realpath words)`: at most the last name of a path may be missing. -/
def realpath (fs : FileSystem) (cwd : Path) (words : List Str) : Str :=
  chomp (unlines (words.filterMap (canonical fs cwd)))

/-! ### The text of a path -/

theorem pathText_of_ne_nil {p : Path} (h : p ≠ []) : pathText p = p.flatMap ('/' :: ·) := if_neg h

theorem pathText_concat (p : Path) (n : Str) :
    pathText (p ++ [n]) = child (p.flatMap ('/' :: ·)) n := by
  rw [pathText_of_ne_nil (by simp), child]
  simp

theorem fields_flatMap_slash {p : Path} (h : ∀ n ∈ p, ValidName n) :
    fields (· = '/') (p.flatMap ('/' :: ·)) = p := by
  induction p using List.reverseRecOn with
  | nil => exact fields_nil _
  | append_singleton p n ih =>
    have hn : ValidName n := h n (by simp)
    have hchars : ∀ c ∈ n, decide (c = '/') = false := by
      intro c hc
      rw [decide_eq_false_iff_not]
      rintro rfl
      exact hn.2.1 hc
    have htext : (p ++ [n]).flatMap ('/' :: ·) = p.flatMap ('/' :: ·) ++ '/' :: n := by simp
    rw [htext, fields_append_cons (by simp), fields_eq_singleton hn.1 hchars,
      ih fun m hm => h m (List.mem_append_left _ hm)]

/-- **Paths with the same text are the same.** -/
theorem pathText_inj {p q : Path} (hp : ∀ n ∈ p, ValidName n) (hq : ∀ n ∈ q, ValidName n)
    (h : pathText p = pathText q) : p = q := by
  have hfields : ∀ r : Path, (∀ n ∈ r, ValidName n) → fields (· = '/') (pathText r) = r := by
    intro r hr
    by_cases hnil : r = []
    · subst hnil
      rfl
    · rw [pathText_of_ne_nil hnil, fields_flatMap_slash hr]
  rw [← hfields p hp, h, hfields q hq]

theorem head?_pathText (p : Path) : (pathText p).head? = some '/' := by
  unfold pathText
  split
  · rfl
  · next h =>
    obtain ⟨n, p, rfl⟩ := List.exists_cons_of_ne_nil h
    rfl

namespace FileSystem

variable {fs : FileSystem}

theorem validName_of_mem {p : Path} {o : Obj} (ho : fs.obj p = some o) : ∀ n ∈ p, ValidName n := by
  induction p using List.reverseRecOn generalizing o with
  | nil => simp
  | append_singleton p n ih =>
    intro m hm
    rcases List.mem_append.mp hm with hm | hm
    · exact ih (dir_of_obj ho) m hm
    · rw [List.mem_singleton.mp hm]
      exact validName_of_obj ho

theorem dir_of_append {p rel : Path} (h : fs.obj (p ++ rel) = some .dir) :
    fs.obj p = some .dir := by
  induction rel using List.reverseRecOn with
  | nil => rwa [List.append_nil] at h
  | append_singleton rel n ih =>
    rw [← List.append_assoc] at h
    exact ih (dir_of_obj h)

/-- The way to a directory is over directories, no links. -/
theorem walk_of_dir {p rel : Path} (h : fs.obj (p ++ rel) = some .dir) (n : ℕ) :
    walk fs false n p rel = some (p ++ rel) := by
  have hlink : ¬ Obj.dir.IsLink := by
    rintro ⟨t, ht⟩
    cases ht
  induction rel generalizing p with
  | nil => rw [walk_nil, List.append_nil]
  | cons c rel ih =>
    have hsplit : p ++ c :: rel = (p ++ [c]) ++ rel := by simp
    rw [hsplit] at h ⊢
    rw [walk_cons_of_obj (dir_of_append h) hlink, ih h]

/-- **The text of a directory's path leads to it**, without any links. -/
theorem resolve_pathText {d : Path} (h : fs.obj d = some .dir) (cwd : Path) :
    fs.resolve cwd (pathText d) = some d := by
  have hstart : start cwd (pathText d) = [] := if_pos (head?_pathText d)
  have hne : pathText d ≠ [] := by
    intro hnil
    have hhead := head?_pathText d
    rw [hnil] at hhead
    cases hhead
  rw [resolve, if_neg hne, hstart]
  rcases List.eq_nil_or_concat d with rfl | ⟨e, n, rfl⟩
  · rfl
  · rw [List.concat_eq_append] at h ⊢
    rw [pathText_concat, comps_child _ (validName_of_obj h),
      fields_flatMap_slash (validName_of_mem (dir_of_obj h))]
    exact walk_of_dir (p := []) h _

theorem isDir_pathText {d : Path} (h : fs.obj d = some .dir) (cwd : Path) :
    fs.isDir cwd (pathText d) = true := by
  rw [isDir, resolve_pathText h]
  exact decide_eq_true h

/-- The text of a directory that is no link leads to it. -/
theorem resolve_of_entry {cwd d : Path} {t : Str} (h : fs.entry cwd t = some d)
    (hd : fs.obj d = some .dir) : fs.resolve cwd t = some d := by
  unfold entry at h
  split at h
  · next e n hplace =>
    split at h
    · cases h
      exact resolve_of_place hplace hd
    · cases h
  · exact h

/-- A directory in one that a text leads to. -/
theorem resolve_entry_of_dir {cwd d : Path} {t n : Str} (h : fs.resolve cwd t = some d)
    (ho : fs.obj (d ++ [n]) = some .dir) : fs.resolve cwd (child t n) = some (d ++ [n]) :=
  resolve_of_place (place_entry h (dir_of_obj ho) (validName_of_obj ho)) ho

/-- Where no name is missing, it makes no difference whether the last one may be. -/
theorem walk_lenient_of_walk {n : ℕ} {cur p : Path} {cs : List Str}
    (h : walk fs false n cur cs = some p) : walk fs true n cur cs = some p := by
  induction h using walk_induction with
  | stop n => exact walk_nil n p
  | goto n cur c cs q hmove _ ih =>
    rw [walk_lenient_cons, hmove]
    exact ih
  | link n cur c cs q ds hmove _ ih =>
    rw [walk_lenient_cons, hmove]
    exact ih

end FileSystem

theorem canonical_of_resolve {fs : FileSystem} {cwd d : Path} {t : Str}
    (h : fs.resolve cwd t = some d) : canonical fs cwd t = some (pathText d) := by
  rw [canonical, if_neg (ne_nil_of_resolve h), walk_lenient_of_walk (walk_of_resolve h)]
  rfl

/-- What `realpath` prints for a text that leads to something. -/
theorem realpath_of_resolve {fs : FileSystem} {cwd d : Path} {t : Str}
    (h : fs.resolve cwd t = some d) (hline : '\n' ∉ pathText d) :
    realpath fs cwd [t] = pathText d := by
  have hlines : unlines ([t].filterMap (canonical fs cwd)) = pathText d ++ ['\n'] := by
    rw [List.filterMap_cons_some (canonical_of_resolve h)]
    simp [unlines]
  rw [realpath, hlines, chomp_concat, chomp_of_notMem hline]

end Dfuser
