import Mathlib.Data.List.Dedup
import Dfuser.Lib.Words

/-!
# Command-line tools

The tools a shell script works on files with, as functions of the words they are
given: `basename`, `readlink -f`, `find`, `sort | uniq`, `mkdir`, `ln -s` and `rm`.
A tool that fails leaves the file system as it is; the scripts do not look at exit
codes.

A word that starts with `-` is an option to a tool.  What the tools do then is left
open, as a parameter.

## Main definitions

* `Options` — the tools on words with options among them.
* `basename`, `readlink`, `find`, `sortUniq`, `mkdir`, `ln`, `rm` — the tools.

## Main results

* `baseName_child` — the last name of a text.
* `mem_find` — what `find` lists.
* `sameButLinks_ln`, `sameButLinks_rm` — **links are all that `ln -s` creates, and all
  that `rm` removes** when none of its operands is a file.
-/

namespace Dfuser

open FileSystem

/-! ### Text -/

/-- `$(…)`: trailing newlines go. -/
def chomp (s : Str) : Str := (s.reverse.dropWhile (· = '\n')).reverse

/-- The lines of an output, one for each text. -/
def unlines (l : List Str) : Str := l.flatMap (· ++ ['\n'])

/-- The last name of a path text, trailing slashes not counted. -/
def baseName (t : Str) : Str :=
  let u := t.reverse.dropWhile (· = '/')
  -- a text of slashes only has the name `/`
  if u = [] then t.take 1 else (u.takeWhile (· ≠ '/')).reverse

/-- `sort | uniq` of the lines of an output. -/
def sortUniq (l : List Str) : List Str := (sortTexts (l.flatMap (·.splitOn '\n'))).dedup

theorem baseName_child (t : Str) {n : Str} (hn : ValidName n) : baseName (child t n) = n := by
  have hslash : ∀ c ∈ n.reverse, c ≠ '/' := by
    intro c hc h
    exact hn.2.1 (h ▸ List.mem_reverse.mp hc)
  have hdrop : (n.reverse ++ '/' :: t.reverse).dropWhile (· = '/') =
      n.reverse ++ '/' :: t.reverse := by
    cases hrev : n.reverse with
    | nil => exact absurd (List.reverse_eq_nil_iff.mp hrev) hn.1
    | cons c cs =>
      rw [List.cons_append, List.dropWhile_cons_of_neg]
      simpa using hslash c (hrev ▸ List.mem_cons_self)
  have htake : (n.reverse ++ '/' :: t.reverse).takeWhile (· ≠ '/') = n.reverse := by
    rw [List.takeWhile_append_of_pos (by simpa using hslash), List.takeWhile_cons_of_neg (by simp),
      List.append_nil]
  have hrev : (child t n).reverse = n.reverse ++ '/' :: t.reverse := by simp [child]
  rw [baseName, hrev]
  simp only [hdrop, htake, List.reverse_reverse]
  rw [if_neg (by simp)]

theorem baseName_of_notMem {n : Str} (h : '/' ∉ n) : baseName n = n := by
  have hrev : ∀ c ∈ n.reverse, c ≠ '/' := by
    rintro c hc rfl
    exact h (List.mem_reverse.mp hc)
  have hdrop : n.reverse.dropWhile (· = '/') = n.reverse := by
    cases hn : n.reverse with
    | nil => rfl
    | cons c cs =>
      exact List.dropWhile_cons_of_neg (by simpa using hrev c (hn ▸ List.mem_cons_self))
  have htake : n.reverse.takeWhile (· ≠ '/') = n.reverse := by
    rw [← List.append_nil n.reverse, List.takeWhile_append_of_pos (by simpa using hrev),
      List.takeWhile_nil]
  unfold baseName
  rw [hdrop]
  dsimp only
  rw [htake, List.reverse_reverse]
  split
  · next hnil =>
    rw [List.reverse_eq_nil_iff] at hnil
    rw [hnil]
    rfl
  · rfl

theorem chomp_of_notMem {s : Str} (h : '\n' ∉ s) : chomp s = s := by
  unfold chomp
  cases hrev : s.reverse with
  | nil => simpa using hrev.symm
  | cons c cs =>
    have hc : c ≠ '\n' := by
      rintro rfl
      exact h (List.mem_reverse.mp (hrev ▸ List.mem_cons_self))
    rw [List.dropWhile_cons_of_neg (by simpa using hc), ← hrev, List.reverse_reverse]

theorem chomp_concat (s : Str) : chomp (s ++ ['\n']) = chomp s := by
  simp [chomp]

/-- The words of lines without separators are the lines, but for empty ones. -/
theorem fields_unlines {p : Char → Bool} (hp : p '\n' = true) {l : List Str}
    (h : ∀ s ∈ l, ∀ c ∈ s, p c = false) : fields p (unlines l) = l.filter (· ≠ []) := by
  induction l with
  | nil => exact fields_nil p
  | cons s l ih =>
    rw [List.forall_mem_cons] at h
    have hrest : fields p (unlines (s :: l)) = fields p s ++ fields p (unlines l) := by
      rw [unlines, List.flatMap_cons, List.append_assoc, List.singleton_append,
        fields_append_cons hp]
      rfl
    rw [hrest, ih h.2]
    cases s with
    | nil =>
      rw [fields_nil]
      rfl
    | cons c s =>
      rw [fields_eq_singleton (List.cons_ne_nil c s) h.1]
      rfl

/-- Lines that are one word each are the words. -/
theorem expandWords_unlines {fs : FileSystem} {cwd : Path} {l : List Str}
    (h : ∀ s ∈ l, expandWords fs cwd s = [s]) : expandWords fs cwd (unlines l) = l := by
  induction l with
  | nil => exact expandWords_nil fs cwd
  | cons s l ih =>
    rw [List.forall_mem_cons] at h
    rw [unlines, List.flatMap_cons, List.append_assoc, List.singleton_append,
      expandWords_append_cons (by decide), h.1]
    exact congrArg _ (ih h.2)

theorem mem_sortUniq {l : List Str} (h : ∀ s ∈ l, '\n' ∉ s) (s : Str) : s ∈ sortUniq l ↔ s ∈ l := by
  have hlines : l.flatMap (·.splitOn '\n') = l := by
    induction l with
    | nil => rfl
    | cons a l ih =>
      have ha : a.splitOn '\n' = [a] := List.splitOn_eq_singleton (h a List.mem_cons_self)
      rw [List.flatMap_cons, ha, ih fun b hb => h b (List.mem_cons_of_mem _ hb)]
      rfl
  rw [sortUniq, hlines, List.mem_dedup, sortTexts, List.mem_insertionSort]

/-! ### The tools -/

/-- The word is taken for an option. -/
def isOption (w : Str) : Bool := w.head? = some '-' ∧ 1 < w.length

/-- The tools on words with options among them. -/
structure Options where
  basename : List Str → Str
  readlink : FileSystem → Path → List Str → Str
  ln : FileSystem → Path → List Str → FileSystem
  rm : FileSystem → Path → List Str → FileSystem

/-- Tools that do nothing with options. -/
def Options.idle : Options := ⟨fun _ => [], fun _ _ _ => [], fun fs _ _ => fs, fun fs _ _ => fs⟩

/-- `$(basename words)`. -/
def basename (opts : Options) (words : List Str) : Str :=
  if (words.head?).any isOption then opts.basename words
  else
    match words with
    | [t] => chomp (baseName t)
    | [t, suffix] =>
      -- the suffix goes unless it is all there is
      let b := baseName t
      chomp (if suffix.isSuffixOf b ∧ suffix ≠ b then b.take (b.length - suffix.length) else b)
    | _ => []

/-- The text of a path. -/
def pathText (p : Path) : Str := if p = [] then ['/'] else p.flatMap ('/' :: ·)

/-- The path a text leads to, when at most its last name is missing. -/
def canonical (fs : FileSystem) (cwd : Path) (t : Str) : Option Str :=
  if t = [] then none else (walk fs true maxLinks (start cwd t) (comps t)).map pathText

/-- `$(readlink -f words)`. -/
def readlink (opts : Options) (fs : FileSystem) (cwd : Path) (words : List Str) : Str :=
  if words.any isOption then opts.readlink fs cwd words
  else chomp (unlines (words.filterMap (canonical fs cwd)))

/-- Something `find` comes across: the text it prints, how far below the starting
point it lies, and what it is. -/
structure Found where
  text : Str
  depth : ℕ
  obj : Option Obj

/-- What `find` comes across from one starting point.  Links are not followed. -/
def found (fs : FileSystem) (cwd : Path) (t : Str) : List Found :=
  match fs.entry cwd t with
  | none => []
  | some p =>
    ⟨t, 0, fs.obj p⟩ :: (fs.entries.keys.filter fun q => p.isPrefixOf q ∧ q ≠ p).map fun q =>
      ⟨t ++ (q.drop p.length).flatMap ('/' :: ·), q.length - p.length, fs.obj q⟩

/-- `find starts`, with a test. -/
def find (fs : FileSystem) (cwd : Path) (starts : List Str) (test : Found → Bool) : List Str :=
  starts.flatMap fun t => ((found fs cwd t).filter test).map Found.text

/-- `-type l` -/
def Found.isLink (f : Found) : Bool :=
  match f.obj with
  | some (.link _) => true
  | _ => false

/-- `-maxdepth 1 -name pat` -/
def Found.isNamed (pat : Str) (f : Found) : Bool := f.depth ≤ 1 ∧ fnmatch pat (baseName f.text)

/-- `mkdir` of one operand. -/
def mkdirOne (cwd : Path) (fs : FileSystem) (t : Str) : FileSystem :=
  match fs.place cwd t with
  | some (d, n) => fs.add d n .dir
  | none => fs

/-- `mkdir words`. -/
def mkdir (fs : FileSystem) (cwd : Path) (words : List Str) : FileSystem :=
  words.foldl (mkdirOne cwd) fs

/-- A link to `t`, inside the directory `d`. -/
def linkInto (fs : FileSystem) (d : Path) (t : Str) : FileSystem := fs.add d (baseName t) (.link t)

/-- A link to `t`, inside the directory that `dst` leads to or else at `dst`. -/
def linkTo (fs : FileSystem) (cwd : Path) (t dst : Str) : FileSystem :=
  match fs.resolve cwd dst with
  | some d =>
    if fs.obj d = some .dir then linkInto fs d t else fs
  | none =>
    match fs.place cwd dst with
    | some (d, n) => fs.add d n (.link t)
    | none => fs

/-- `ln -s words`: one operand is linked in the working directory, two are a target
and a destination, more are targets and a directory. -/
def ln (opts : Options) (fs : FileSystem) (cwd : Path) (words : List Str) : FileSystem :=
  if words.any isOption then opts.ln fs cwd words
  else
    match words with
    | [] => fs
    | [t] => linkInto fs cwd t
    | [t, dst] => linkTo fs cwd t dst
    | ts =>
      match (ts.getLast?).bind (fs.resolve cwd) with
      | none => fs
      | some d =>
        if fs.obj d = some .dir then ts.dropLast.foldl (fun fs t => linkInto fs d t) fs else fs

/-- `rm` of one operand; a directory is refused. -/
def rmOne (cwd : Path) (fs : FileSystem) (t : Str) : FileSystem :=
  match fs.place cwd t with
  | some (d, n) => fs.remove (d ++ [n])
  | none => fs

/-- `rm words`. -/
def rm (opts : Options) (fs : FileSystem) (cwd : Path) (words : List Str) : FileSystem :=
  if words.any isOption then opts.rm fs cwd words else words.foldl (rmOne cwd) fs

/-! ### What the tools do -/

section Tools

variable {fs : FileSystem} {cwd : Path}

theorem basename_child (opts : Options) {t n : Str} (hn : ValidName n) (hnl : '\n' ∉ n)
    (ht : isOption (child t n) = false) : basename opts [child t n] = n := by
  simp only [basename, List.head?_cons, Option.any_some, ht, Bool.false_eq_true, if_false,
    baseName_child t hn, chomp_of_notMem hnl]

/-- What `find` comes across, in terms of paths. -/
theorem mem_found {t : Str} {d : Path} (h : fs.entry cwd t = some d) (f : Found) :
    f ∈ found fs cwd t ↔ f = ⟨t, 0, fs.obj d⟩ ∨ ∃ rel o, rel ≠ [] ∧ fs.obj (d ++ rel) = some o ∧
      f = ⟨t ++ rel.flatMap ('/' :: ·), rel.length, some o⟩ := by
  simp only [found, h, List.mem_cons, List.mem_map, List.mem_filter]
  refine or_congr Iff.rfl ⟨?_, ?_⟩
  · rintro ⟨q, ⟨hq, hpre⟩, rfl⟩
    simp only [decide_eq_true_eq, List.isPrefixOf_iff_prefix] at hpre
    obtain ⟨⟨rel, rfl⟩, hne⟩ := hpre
    have hrel : rel ≠ [] := by
      rintro rfl
      exact hne (List.append_nil d)
    obtain ⟨o, ho⟩ := (Dict.mem_keys_iff _ _).mp hq
    rw [← obj_of_ne_nil fs (by simp [hrel])] at ho
    exact ⟨rel, o, hrel, ho, by simp [ho]⟩
  · rintro ⟨rel, o, hrel, ho, rfl⟩
    refine ⟨d ++ rel, ⟨?_, ?_⟩, by simp [ho]⟩
    · rw [obj_of_ne_nil fs (by simp [hrel])] at ho
      exact (Dict.mem_keys_iff _ _).mpr ⟨o, ho⟩
    · simp [List.isPrefixOf_iff_prefix, hrel]

/-- What `find` lists from one starting point. -/
theorem mem_find {t : Str} {test : Found → Bool} (x : Str) :
    x ∈ find fs cwd [t] test ↔ ∃ f ∈ found fs cwd t, test f = true ∧ f.text = x := by
  simp [find, and_assoc]

theorem flatMap_slash_concat (t : Str) (rel : Path) (n : Str) :
    t ++ (rel ++ [n]).flatMap ('/' :: ·) = child (t ++ rel.flatMap ('/' :: ·)) n := by
  simp [child]

/-- Where nothing leads, `ln -s` creates the link itself. -/
theorem linkTo_of_free {t dst n : Str} {d : Path} (hres : fs.resolve cwd dst = none)
    (hplace : fs.place cwd dst = some (d, n)) : linkTo fs cwd t dst = fs.add d n (.link t) := by
  simp only [linkTo, hres, hplace]

/-- Over an existing name, `ln -s` does nothing, or creates a link in a directory. -/
theorem linkTo_of_taken {t dst n : Str} {d : Path} {o : Obj}
    (hplace : fs.place cwd dst = some (d, n)) (ho : fs.obj (d ++ [n]) = some o) :
    linkTo fs cwd t dst = fs ∨ ∃ e, linkTo fs cwd t dst = fs.add e (baseName t) (.link t) := by
  unfold linkTo
  split
  · next e _ =>
    split
    · exact Or.inr ⟨e, rfl⟩
    · exact Or.inl rfl
  · left
    simp only [hplace]
    exact add_of_taken ho _

theorem sameButLinks_linkInto (d : Path) (t : Str) : fs.SameButLinks (linkInto fs d t) :=
  sameButLinks_add_link _ _ _ _

theorem sameButLinks_foldl_linkInto (d : Path) (ts : List Str) (fs : FileSystem) :
    fs.SameButLinks (ts.foldl (fun fs t => linkInto fs d t) fs) := by
  induction ts generalizing fs with
  | nil => exact SameButLinks.refl fs
  | cons t ts ih => exact (sameButLinks_linkInto d t).trans (ih _)

/-- **Links are all that `ln -s` creates.** -/
theorem sameButLinks_ln (opts : Options) {words : List Str} (h : words.any isOption = false) :
    fs.SameButLinks (ln opts fs cwd words) := by
  unfold ln
  rw [if_neg (by simp [h])]
  match words with
  | [] => exact SameButLinks.refl fs
  | [t] => exact sameButLinks_linkInto cwd t
  | [t, dst] =>
    simp only [linkTo]
    split
    · split
      · exact sameButLinks_linkInto _ t
      · exact SameButLinks.refl fs
    · split
      · exact sameButLinks_add_link _ _ _ _
      · exact SameButLinks.refl fs
  | t₁ :: t₂ :: t₃ :: ts =>
    simp only
    split
    · exact SameButLinks.refl fs
    · split
      · exact sameButLinks_foldl_linkInto _ _ fs
      · exact SameButLinks.refl fs

/-- The operand names a file. -/
def namesFile (fs : FileSystem) (cwd : Path) (w : Str) : Bool :=
  match (fs.place cwd w).bind fun e => fs.obj (e.1 ++ [e.2]) with
  | some (.file _) => true
  | _ => false

theorem namesFile_iff {w : Str} : namesFile fs cwd w = true ↔
    ∃ d n c, fs.place cwd w = some (d, n) ∧ fs.obj (d ++ [n]) = some (.file c) := by
  unfold namesFile
  constructor
  · split
    · next c h =>
      intro _
      obtain ⟨⟨d, n⟩, hp, ho⟩ := Option.bind_eq_some_iff.mp h
      exact ⟨d, n, c, hp, ho⟩
    · intro h
      cases h
  · rintro ⟨d, n, c, hp, ho⟩
    simp [hp, ho]

theorem rmOne_le (w : Str) : (rmOne cwd fs w).Le fs := by
  unfold rmOne
  split
  · exact remove_le _ _
  · exact Le.refl fs

/-- What names a file after a removal named one before. -/
theorem namesFile_mono {fs' : FileSystem} (hle : fs'.Le fs) {w : Str}
    (h : namesFile fs' cwd w = true) : namesFile fs cwd w = true := by
  obtain ⟨d, n, c, hp, ho⟩ := namesFile_iff.mp h
  exact namesFile_iff.mpr ⟨d, n, c, place_mono hle hp, hle _ _ ho⟩

theorem sameButLinks_rmOne {w : Str} (h : namesFile fs cwd w = false) :
    fs.SameButLinks (rmOne cwd fs w) := by
  unfold rmOne
  split
  · next d n hp =>
    apply sameButLinks_remove
    intro c hc
    rw [namesFile_iff.mpr ⟨d, n, c, hp, hc⟩] at h
    cases h
  · exact SameButLinks.refl fs

theorem sameButLinks_foldl_rmOne {words : List Str} {fs : FileSystem}
    (h : ∀ w ∈ words, namesFile fs cwd w = false) :
    fs.SameButLinks (words.foldl (rmOne cwd) fs) := by
  induction words generalizing fs with
  | nil => exact SameButLinks.refl fs
  | cons w ws ih =>
    refine (sameButLinks_rmOne (h w List.mem_cons_self)).trans (ih fun a ha => ?_)
    -- removing one operand makes no other one the name of a file
    cases hafter : namesFile (rmOne cwd fs w) cwd a with
    | false => rfl
    | true =>
      rw [← namesFile_mono (rmOne_le w) hafter]
      exact h a (List.mem_cons_of_mem _ ha)

/-- **Links are all that `rm` removes** when none of its operands is a file. -/
theorem sameButLinks_rm (opts : Options) {words : List Str} (h : words.any isOption = false)
    (hfile : ∀ w ∈ words, namesFile fs cwd w = false) : fs.SameButLinks (rm opts fs cwd words) := by
  unfold rm
  rw [if_neg (by simp [h])]
  exact sameButLinks_foldl_rmOne hfile

end Tools

end Dfuser
