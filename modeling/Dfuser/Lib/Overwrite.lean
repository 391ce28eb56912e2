import Dfuser.Lib.Coreutils
import Dfuser.Lib.Walks

/-!
# Tools that overwrite

The tools with which a script replaces what is there: redirections, `touch`, `cp`,
`mkdir -p`, `ln -fs` and `rm -rf`, each on texts that name paths.  A tool that fails
leaves the file system as it is, and `none` is its exit status.

Where a tool puts something is often not where its operand says: an operand that leads
to a directory stands for a place inside it, and a file is opened through links, even
through one whose target is still missing.

## Main definitions

* `FileSystem.write`, `FileSystem.removeTree` — a new content, and the removal of a whole
  tree.
* `redirect`, `touch`, `cp`, `mkdirP`, `lnForce`, `rmTree` — the tools.

## Main results

* `FileSystem.obj_write`, `FileSystem.obj_removeTree` — what the two change.
* `redirect_spec` — a redirection changes the file that is opened.
* `sameButFiles_cp` — `cp` changes no directory and no link.
* `lnForce_eq_some_iff`, `obj_relink` — **`ln -fs` replaces one entry**, and no directory.
-/

namespace Dfuser
namespace FileSystem

/-! ### A new content -/

/-- There is a regular file at the path. -/
def isFileAt (fs : FileSystem) (p : Path) : Bool :=
  match fs.obj p with
  | some (.file _) => true
  | _ => false

theorem isFileAt_iff {fs : FileSystem} {p : Path} :
    fs.isFileAt p = true ↔ ∃ c, fs.obj p = some (.file c) := by
  unfold isFileAt
  split
  · next c h => exact ⟨fun _ => ⟨c, h⟩, fun _ => rfl⟩
  · next h =>
    constructor
    · intro hf
      cases hf
    · rintro ⟨c, hc⟩
      exact absurd hc (h c)

/-- A directory holds files only if its entries are files. -/
theorem file_of_keys {fs : FileSystem} {d : Path}
    (h : ∀ p ∈ fs.entries.keys, p.dropLast = d → fs.isFileAt p = true) (n : Str) (o : Obj)
    (ho : fs.obj (d ++ [n]) = some o) : ∃ c, o = .file c := by
  have hkey := (fs.mem_keys_iff d n).mpr ⟨o, ho⟩
  obtain ⟨c, hc⟩ := isFileAt_iff.mp (h _ hkey List.dropLast_concat)
  exact ⟨c, Option.some.inj (ho.symm.trans hc)⟩

/-- `-f`: the text leads to a regular file. -/
def isRegular (fs : FileSystem) (cwd : Path) (text : Str) : Bool :=
  (fs.resolve cwd text).any fs.isFileAt

/-- Give the file at `p` a new content.  Nothing happens when there is no file. -/
def write (fs : FileSystem) (p : Path) (c : Str) : FileSystem :=
  if h : fs.isFileAt p = true then
    have hp : p ≠ [] := by
      rintro rfl
      obtain ⟨c', hc⟩ := isFileAt_iff.mp h
      rw [obj_nil] at hc
      cases hc
    have hkey : p ∈ fs.entries.keys := by
      obtain ⟨c', hc⟩ := isFileAt_iff.mp h
      rw [obj_of_ne_nil fs hp] at hc
      exact (Dict.mem_keys_iff _ _).mpr ⟨_, hc⟩
    have hkeys : ∀ q, q ∈ (fs.entries.set p (.file c)).keys → q ∈ fs.entries.keys := by
      intro q hq
      rcases (Dict.mem_keys_set _ _ _ _).mp hq with rfl | hq
      · exact hkey
      · exact hq
    { entries := fs.entries.set p (.file c)
      root := fun hm => fs.root (hkeys _ hm)
      names := fun q n hm => fs.names q n (hkeys _ hm)
      parents := by
        intro q n hm hq
        have hdir := fs.parents q n (hkeys _ hm) hq
        -- a file holds nothing
        have hne : q ≠ p := by
          rintro rfl
          obtain ⟨c', hc⟩ := isFileAt_iff.mp h
          rw [obj_of_ne_nil fs hq, hdir] at hc
          cases hc
        rw [Dict.get?_set_of_ne _ hne, hdir] }
  else fs

/-- **Writing changes one file.** -/
theorem obj_write (fs : FileSystem) (p : Path) (c : Str) (q : Path) :
    (fs.write p c).obj q = if q = p ∧ fs.isFileAt p = true then some (.file c) else fs.obj q := by
  unfold write
  split
  · next h =>
    have hp : p ≠ [] := by
      rintro rfl
      obtain ⟨c', hc⟩ := isFileAt_iff.mp h
      rw [obj_nil] at hc
      cases hc
    by_cases hq : q = p
    · rw [if_pos ⟨hq, h⟩, hq, obj_of_ne_nil _ hp]
      exact Dict.get?_set_self _ _ _
    · rw [if_neg fun hc => hq hc.1]
      unfold obj
      split
      · rfl
      · exact Dict.get?_set_of_ne _ hq _
  · next h => rw [if_neg fun hc => h hc.2]

/-! ### Removing a tree -/

/-- Remove what is at `p` and below.  The root stays. -/
def removeTree (fs : FileSystem) (p : Path) : FileSystem :=
  if p = [] then fs
  else
    { entries := fs.entries.eraseAll fun q => p.isPrefixOf q
      root := fun hm => fs.root ((Dict.mem_keys_eraseAll _ _ _).mp hm).2
      names := fun q n hm => fs.names q n ((Dict.mem_keys_eraseAll _ _ _).mp hm).2
      parents := by
        intro q n hm hq
        obtain ⟨hout, hm⟩ := (Dict.mem_keys_eraseAll _ _ _).mp hm
        -- what lies outside lies in something outside
        have hq' : p.isPrefixOf q = false := by
          by_contra hin
          rw [Bool.not_eq_false, List.isPrefixOf_iff_prefix] at hin
          rw [List.isPrefixOf_iff_prefix.mpr (hin.trans (List.prefix_append q [n]))] at hout
          cases hout
        rw [Dict.get?_eraseAll, hq', fs.parents q n hm hq]
        rfl }

/-- **Removing a tree** leaves everything else. -/
theorem obj_removeTree (fs : FileSystem) {p : Path} (hp : p ≠ []) (q : Path) :
    (fs.removeTree p).obj q = if p <+: q then none else fs.obj q := by
  rw [removeTree, if_neg hp]
  by_cases hq : q = []
  · rw [hq, obj_nil, obj_nil, if_neg]
    exact fun h => hp (List.prefix_nil.mp h)
  · rw [obj_of_ne_nil _ hq, obj_of_ne_nil fs hq, Dict.get?_eraseAll]
    simp only [List.isPrefixOf_iff_prefix]

end FileSystem

open FileSystem

/-! ### The tools -/

section Tools

variable (fs : FileSystem) (cwd : Path)

/-- The path that opening a text for writing leads to.  The last name may be missing,
also that of a link. -/
def openPath (t : Str) : Option Path :=
  if t = [] then none else walk fs true maxLinks (start cwd t) (comps t)

/-- `> t` and `>> t`, for a command that prints `c`. -/
def redirect (append : Bool) (t c : Str) : Option FileSystem :=
  match openPath fs cwd t with
  | none => none
  | some p =>
    match fs.obj p with
    | none => p.getLast?.map fun n => fs.add p.dropLast n (.file c)
    | some (.file old) => some (fs.write p (if append then old ++ c else c))
    | some _ => none

/-- `touch t`; times are not modelled. -/
def touch (t : Str) : Option FileSystem :=
  match openPath fs cwd t with
  | none => none
  | some p =>
    match fs.obj p with
    | none => p.getLast?.map fun n => fs.add p.dropLast n (.file [])
    | some _ => some fs

/-- Where `cp src dst` puts the copy. -/
def cpTarget (src dst : Str) : Str := if fs.isDir cwd dst then child dst (baseName src) else dst

/-- `cp src dst`.  A directory is omitted, a file is not copied onto itself, and nothing
is written through a link that leads nowhere. -/
def cp (src dst : Str) : Option FileSystem :=
  match fs.resolve cwd src with
  | none => none
  | some p =>
    match fs.obj p with
    | some (.file c) =>
      let target := cpTarget fs cwd src dst
      match fs.resolve cwd target with
      | some q => if q ≠ p ∧ fs.isFileAt q then some (fs.write q c) else none
      | none =>
        match fs.place cwd target with
        | some (d, n) => if fs.obj (d ++ [n]) = none then some (fs.add d n (.file c)) else none
        | none => none
    | _ => none

/-- Create the directories along components, each in the one before. -/
def mkdirAlong : FileSystem → Path → List Str → FileSystem
  | fs, _, [] => fs
  | fs, cur, c :: cs =>
    let fs' := fs.add cur c .dir
    match walk fs' false maxLinks cur [c] with
    | some p => mkdirAlong fs' p cs
    | none => fs'

/-- `mkdir -p t`. -/
def mkdirP (t : Str) : FileSystem := mkdirAlong fs (start cwd t) (comps t)

/-- The entry that `ln -fs src dst` creates: inside the directory that `dst` leads to, or
else `dst` itself. -/
def lnTarget (src dst : Str) : Option (Path × Str) :=
  match fs.resolve cwd dst with
  | some d => if fs.obj d = some .dir then some (d, baseName src) else fs.place cwd dst
  | none => fs.place cwd dst

/-- `ln -fs src dst`.  A directory is not overwritten, nor is the file that `src` leads
to. -/
def lnForce (src dst : Str) : Option FileSystem :=
  match lnTarget fs cwd src dst with
  | none => none
  | some (d, n) =>
    if fs.obj (d ++ [n]) = some .dir ∨ fs.resolve cwd src = some (d ++ [n]) then none
    else some ((fs.remove (d ++ [n])).add d n (.link src))

/-- `rm -rf t`. -/
def rmTree (t : Str) : FileSystem :=
  match fs.place cwd t with
  | some (d, n) => fs.removeTree (d ++ [n])
  | none => fs

end Tools

/-! ### What the tools change -/

section Changes

variable {fs fs' : FileSystem} {cwd : Path}

theorem sameButFiles_write (p : Path) (c : Str) : fs.SameButFiles (fs.write p c) := by
  intro q o ho
  rw [obj_write]
  split
  · next h =>
    obtain ⟨rfl, hfile⟩ := h
    obtain ⟨c', hc⟩ := isFileAt_iff.mp hfile
    rw [hc, Option.some.injEq, Option.some.injEq]
    exact ⟨fun h => absurd h.symm (ho c'), fun h => absurd h.symm (ho c)⟩
  · exact Iff.rfl

theorem sameButFiles_add_file (d : Path) (n c : Str) : fs.SameButFiles (fs.add d n (.file c)) := by
  intro q o ho
  rw [obj_add]
  split
  · next h =>
    obtain ⟨rfl, -, -, hfree⟩ := h
    rw [hfree]
    constructor
    · intro h
      cases h
    · intro h
      exact absurd (Option.some.inj h).symm (ho c)
  · exact Iff.rfl

/-! ### Files that are opened -/

/-- What is in a file. -/
def contentAt (fs : FileSystem) (p : Path) : Str :=
  match fs.obj p with
  | some (.file c) => c
  | _ => []

theorem contentAt_of_file {p : Path} {c : Str} (h : fs.obj p = some (.file c)) :
    contentAt fs p = c := by
  rw [contentAt, h]

/-- Files do not change where a file is opened. -/
theorem openPath_of_sameButFiles (hsame : fs.SameButFiles fs') (t : Str) :
    openPath fs' cwd t = openPath fs cwd t := by
  unfold openPath
  rw [walk_lenient_of_sameButFiles hsame]

/-- A file that was opened is where the text leads. -/
theorem resolve_of_openPath {t : Str} {p : Path} {o : Obj} (h : openPath fs cwd t = some p)
    (ho : fs.obj p = some o) : fs.resolve cwd t = some p := by
  unfold openPath at h
  split at h
  · cases h
  · next ht =>
    rw [resolve, if_neg ht]
    exact walk_of_walk_lenient h ho

/-- What is opened is no link, or a name that is free. -/
theorem openPath_end {t : Str} {p : Path} (hcwd : fs.obj (start cwd t) = some .dir)
    (h : openPath fs cwd t = some p) :
    (∃ o, fs.obj p = some o ∧ ¬ o.IsLink) ∨
      ∃ d c, p = d ++ [c] ∧ ValidName c ∧ fs.obj d = some .dir ∧ fs.obj p = none := by
  unfold openPath at h
  split at h
  · cases h
  · apply walk_lenient_end h hcwd
    · rintro ⟨t, ht⟩
      cases ht
    · intro c hc
      exact mem_comps hc

/-- **A redirection changes the file that is opened, and nothing else.** -/
theorem redirect_spec (append : Bool) {t : Str} {p : Path}
    (hcwd : fs.obj (start cwd t) = some .dir) (h : openPath fs cwd t = some p)
    (hdir : fs.obj p ≠ some .dir) (c : Str) :
    ∃ fs', redirect fs cwd append t c = some fs' ∧ fs.SameButFiles fs' ∧
      ∀ q, fs'.obj q =
        if q = p then some (.file (if append then contentAt fs p ++ c else c)) else fs.obj q := by
  unfold redirect
  rw [h]
  dsimp only
  rcases openPath_end hcwd h with ⟨o, ho, hlink⟩ | ⟨d, n, rfl, hname, hd, ho⟩
  · rw [ho]
    cases o with
    | link t => exact absurd ⟨t, rfl⟩ hlink
    | dir => exact absurd ho hdir
    | file old =>
      refine ⟨_, rfl, sameButFiles_write _ _, ?_⟩
      intro q
      rw [obj_write, contentAt_of_file ho]
      by_cases hq : q = p
      · rw [if_pos ⟨hq, isFileAt_iff.mpr ⟨old, ho⟩⟩, if_pos hq]
      · rw [if_neg fun hc => hq hc.1, if_neg hq]
  · -- nothing is appended to
    have hnothing : contentAt fs (d ++ [n]) = [] := by rw [contentAt, ho]
    rw [ho]
    dsimp only
    rw [List.getLast?_concat, List.dropLast_concat, Option.map_some, hnothing, List.nil_append,
      ite_self]
    refine ⟨_, rfl, sameButFiles_add_file _ _ _, ?_⟩
    intro q
    rw [obj_add]
    by_cases hq : q = d ++ [n]
    · rw [if_pos ⟨hq, hname, hd, ho⟩, if_pos hq]
    · rw [if_neg fun hc => hq hc.1, if_neg hq]

/-- What a redirection does: it creates a file, or writes the one that is opened. -/
theorem redirect_cases {append : Bool} {t c : Str} (h : redirect fs cwd append t c = some fs') :
    (∃ d n, fs' = fs.add d n (.file c)) ∨
      ∃ p new, openPath fs cwd t = some p ∧ fs.isFileAt p = true ∧ fs' = fs.write p new := by
  unfold redirect at h
  split at h
  · cases h
  · next p hp =>
    split at h
    · obtain ⟨n, -, hn⟩ := Option.map_eq_some_iff.mp h
      exact .inl ⟨_, n, hn.symm⟩
    · next old ho => exact .inr ⟨p, _, hp, isFileAt_iff.mpr ⟨old, ho⟩, (Option.some.inj h).symm⟩
    · cases h

/-- `touch` changes no file that is there. -/
theorem touch_cases {t : Str} (h : touch fs cwd t = some fs') :
    fs' = fs ∨ ∃ d n, fs' = fs.add d n (.file []) := by
  unfold touch at h
  split at h
  · cases h
  · split at h
    · obtain ⟨n, -, hn⟩ := Option.map_eq_some_iff.mp h
      exact .inr ⟨_, n, hn.symm⟩
    · exact .inl (Option.some.inj h).symm

/-- What `cp` does: it writes a file that is there, or creates one. -/
theorem cp_cases {src dst : Str} (h : cp fs cwd src dst = some fs') :
    (∃ q c, fs.resolve cwd (cpTarget fs cwd src dst) = some q ∧ fs' = fs.write q c) ∨
      ∃ d n c, fs.place cwd (cpTarget fs cwd src dst) = some (d, n) ∧
        fs' = fs.add d n (.file c) := by
  unfold cp at h
  split at h
  · cases h
  · split at h
    · next c _ =>
      dsimp only at h
      split at h
      · next q hq =>
        split at h
        · exact .inl ⟨q, c, hq, (Option.some.inj h).symm⟩
        · cases h
      · split at h
        · next d n hplace =>
          split at h
          · exact .inr ⟨d, n, c, hplace, (Option.some.inj h).symm⟩
          · cases h
        · cases h
    · cases h

/-- **`cp` changes no directory and no link.** -/
theorem sameButFiles_cp {src dst : Str} (h : cp fs cwd src dst = some fs') :
    fs.SameButFiles fs' := by
  rcases cp_cases h with ⟨q, c, -, rfl⟩ | ⟨d, n, c, -, rfl⟩
  · exact sameButFiles_write q c
  · exact sameButFiles_add_file d n c

/-- What `ln -fs` does: it replaces the entry where the link goes. -/
theorem lnForce_eq_some_iff {src dst : Str} :
    lnForce fs cwd src dst = some fs' ↔ ∃ d n, lnTarget fs cwd src dst = some (d, n) ∧
      fs.obj (d ++ [n]) ≠ some .dir ∧ fs.resolve cwd src ≠ some (d ++ [n]) ∧
      fs' = (fs.remove (d ++ [n])).add d n (.link src) := by
  unfold lnForce
  constructor
  · intro h
    split at h
    · cases h
    · next d n htarget =>
      split at h
      · cases h
      · next hcond =>
        rw [not_or] at hcond
        exact ⟨d, n, htarget, hcond.1, hcond.2, (Option.some.inj h).symm⟩
  · rintro ⟨d, n, htarget, hdir, hsame, rfl⟩
    rw [htarget]
    simp [hdir, hsame]

/-- A link in the place of an entry that is no directory. -/
theorem obj_relink {d : Path} {n t : Str} (hname : ValidName n) (hd : fs.obj d = some .dir)
    (hdir : fs.obj (d ++ [n]) ≠ some .dir) (p : Path) :
    ((fs.remove (d ++ [n])).add d n (.link t)).obj p =
      if p = d ++ [n] then some (.link t) else fs.obj p := by
  have hne : d ≠ d ++ [n] := fun h => by simpa using congrArg List.length h
  have hd' : (fs.remove (d ++ [n])).obj d = some .dir := by
    rw [obj_remove, if_neg fun h => hne h.1, hd]
  have hfree : (fs.remove (d ++ [n])).obj (d ++ [n]) = none := by
    rw [obj_remove, if_pos ⟨rfl, hdir⟩]
  rw [obj_add]
  by_cases hp : p = d ++ [n]
  · rw [if_pos ⟨hp, hname, hd', hfree⟩, if_pos hp]
  · rw [if_neg fun h => hp h.1, if_neg hp, obj_remove, if_neg fun h => hp h.1]

end Changes

end Dfuser
