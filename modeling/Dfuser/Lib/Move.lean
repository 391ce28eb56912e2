import Dfuser.Lib.Overwrite

/-!
# Moving files

`mv`, which renames what its operands name, over an entry that is there already, too.  Of
a directory it is left open what becomes of it, and so is what `mv` does with options,
unless it refuses them.

## Main definitions

* `mv`, `mvOne` — the tool, and the move of one operand.
* `NothingLost` — every file of a directory is still there, under some name.

## Main results

* `obj_mvOne` — **what a move changes**.
* `nothingLost_of_obj` — nothing is lost when the new name is free.
-/

namespace Dfuser

open FileSystem

/-! ### The tool -/

/-- An option that `mv` does not have, among those given with one dash; what follows `-S`
or `-t` is no option. -/
def isUnknownOption : Str → Bool
  | '-' :: c :: s =>
    c != '-' && ((c :: s).takeWhile fun d => d ≠ 'S' ∧ d ≠ 't').any fun d =>
      !"bfinTuvZ".toList.contains d
  | _ => false

theorem isOption_of_isUnknownOption {w : Str} (h : isUnknownOption w = true) :
    isOption w = true := by
  unfold isUnknownOption at h
  split at h
  · simp [isOption]
  · cases h

/-- What is left open of `mv`. -/
structure Mover where
  /-- `mv` on words with options among them. -/
  options : FileSystem → Path → List Str → FileSystem
  /-- The move of a directory from one path to another. -/
  dir : FileSystem → Path → Path → FileSystem
  /-- With an unknown option nothing is moved. -/
  refuses : ∀ fs cwd src dst, isOption src = false → isUnknownOption dst = true →
    options fs cwd [src, dst] = fs

/-- An `mv` that does nothing with options and with directories. -/
def Mover.idle : Mover := ⟨fun fs _ _ => fs, fun fs _ _ => fs, fun _ _ _ _ _ _ => rfl⟩

section Tool

variable (M : Mover)

/-- Where `mv` puts what has the name `m`: in the directory that `dst` leads to, or else
at `dst`. -/
def mvTarget (fs : FileSystem) (cwd : Path) (m dst : Str) : Option (Path × Str) :=
  if fs.isDir cwd dst then (fs.resolve cwd dst).map (·, m) else fs.place cwd dst

/-- `mv src dst`.  What is there already is replaced, but no directory is. -/
def mvOne (cwd : Path) (dst : Str) (fs : FileSystem) (src : Str) : FileSystem :=
  match fs.place cwd src with
  | none => fs
  | some (e, m) =>
    match mvTarget fs cwd m dst, fs.obj (e ++ [m]) with
    | some (d, n), some o =>
      if d ++ [n] = e ++ [m] then fs
      else if o = .dir then M.dir fs (e ++ [m]) (d ++ [n])
      else if fs.obj (d ++ [n]) = some .dir then fs
      else ((fs.remove (d ++ [n])).remove (e ++ [m])).add d n o
    | _, _ => fs

/-- `mv` of several operands into a directory.  What one of them has become is not
replaced by another. -/
def mvInto (cwd : Path) (dst : Str) : List Path → FileSystem → List Str → FileSystem
  | _, fs, [] => fs
  | moved, fs, src :: srcs =>
    match fs.place cwd src with
    | none => mvInto cwd dst moved fs srcs
    | some (e, m) =>
      match mvTarget fs cwd m dst, fs.obj (e ++ [m]) with
      | some (d, n), some _ =>
        if d ++ [n] ∈ moved then mvInto cwd dst moved fs srcs
        else mvInto cwd dst ((d ++ [n]) :: moved) (mvOne M cwd dst fs src) srcs
      | _, _ => mvInto cwd dst moved fs srcs

/-- `mv words`. -/
def mv (fs : FileSystem) (cwd : Path) (words : List Str) : FileSystem :=
  if words.any isOption then M.options fs cwd words
  else
    match words with
    | [src, dst] => mvOne M cwd dst fs src
    | words =>
      match words.getLast? with
      | some dst => if fs.isDir cwd dst then mvInto M cwd dst [] fs words.dropLast else fs
      | none => fs

end Tool

/-! ### What a move changes -/

section Changes

variable {M : Mover} {fs : FileSystem} {cwd e d : Path} {src dst m n : Str} {o : Obj}

theorem validName_of_place (h : fs.place cwd dst = some (d, n)) : ValidName n := by
  unfold place at h
  obtain ⟨c, hc, h⟩ := Option.bind_eq_some_iff.mp h
  split at h
  · cases h
  · next hdots =>
    obtain ⟨e, -, h⟩ := Option.bind_eq_some_iff.mp h
    split at h
    · cases h
      obtain ⟨hne, hslash⟩ := mem_comps (List.mem_of_getLast? hc)
      rw [not_or] at hdots
      exact ⟨hne, hslash, hdots.1, hdots.2⟩
    · cases h

/-- What is moved is put in a directory, under a name. -/
theorem mvTarget_spec (hm : ValidName m) (h : mvTarget fs cwd m dst = some (d, n)) :
    ValidName n ∧ fs.obj d = some .dir := by
  unfold mvTarget at h
  split at h
  · next hdir =>
    obtain ⟨e, he, heq⟩ := Option.map_eq_some_iff.mp h
    cases heq
    refine ⟨hm, ?_⟩
    rw [isDir, he, Option.bind_some, decide_eq_true_eq] at hdir
    exact hdir
  · exact ⟨validName_of_place h, dir_of_place h⟩

/-- Where nothing leads, the target is the operand itself. -/
theorem mvTarget_of_free (h : fs.resolve cwd dst = none) :
    mvTarget fs cwd m dst = fs.place cwd dst := by
  rw [mvTarget, if_neg]
  simp [isDir, h]

/-- **What a move changes**: the new name and the old one. -/
theorem obj_mvOne (hsrc : fs.place cwd src = some (e, m))
    (htarget : mvTarget fs cwd m dst = some (d, n))
    (ho : fs.obj (e ++ [m]) = some o) (hdir : o ≠ .dir) (hnew : fs.obj (d ++ [n]) ≠ some .dir)
    (hne : d ++ [n] ≠ e ++ [m]) (r : Path) :
    (mvOne M cwd dst fs src).obj r =
      if r = d ++ [n] then some o else if r = e ++ [m] then none else fs.obj r := by
  obtain ⟨hn, hd⟩ := mvTarget_spec (validName_of_place hsrc) htarget
  have hold : fs.obj (e ++ [m]) ≠ some .dir := by
    rw [ho]
    exact fun h => hdir (Option.some.inj h)
  have hremoved : ∀ q, ((fs.remove (d ++ [n])).remove (e ++ [m])).obj q =
      if q = d ++ [n] ∨ q = e ++ [m] then none else fs.obj q := by
    intro q
    rw [obj_remove, obj_remove, obj_remove]
    by_cases hq : q = d ++ [n]
    · simp [hq, hnew]
    · simp [hq, Ne.symm hne, hold]
  have hmove : mvOne M cwd dst fs src = ((fs.remove (d ++ [n])).remove (e ++ [m])).add d n o := by
    simp only [mvOne, hsrc, htarget, ho]
    rw [if_neg hne, if_neg hdir, if_neg hnew]
  -- the directory is neither of the two
  have hself : d ≠ d ++ [n] := fun h => by simpa using congrArg List.length h
  have hother : d ≠ e ++ [m] := by
    rintro rfl
    exact hold hd
  rw [hmove, obj_add, hremoved, hremoved, hremoved]
  by_cases hr : r = d ++ [n]
  · simp [hr, hn, hself, hother, hd]
  · simp [hr]

/-- After a move there is what was there, or what has been moved. -/
theorem eq_or_of_moved {fs' : FileSystem} {p q r : Path} {x : Obj}
    (h : ∀ r, fs'.obj r = if r = q then some o else if r = p then none else fs.obj r)
    (hr : fs'.obj r = some x) : x = o ∨ fs.obj r = some x := by
  rw [h] at hr
  split at hr
  · exact .inl (Option.some.inj hr).symm
  · split at hr
    · cases hr
    · exact .inr hr

/-- A file that moves to a free path leaves directories and links alone. -/
theorem sameButFiles_of_moved {fs' : FileSystem} {p q : Path} {c : Str}
    (hp : fs.obj p = some (.file c)) (hq : fs.obj q = none)
    (h : ∀ r, fs'.obj r = if r = q then some (.file c) else if r = p then none else fs.obj r) :
    fs.SameButFiles fs' := by
  intro r o hfile
  have hne : some (.file c) ≠ some o := fun hcase => hfile c (Option.some.inj hcase).symm
  have hnone : none ≠ some o := fun hcase => by cases hcase
  rw [h]
  split
  · next hr =>
    rw [hr, hq]
    exact iff_of_false hnone hne
  · split
    · next hr =>
      rw [hr, hp]
      exact iff_of_false hne hnone
    · exact Iff.rfl

/-- Over its own name nothing is moved. -/
theorem mvOne_self (hsrc : fs.place cwd src = some (e, m))
    (htarget : mvTarget fs cwd m dst = some (e, m)) : mvOne M cwd dst fs src = fs := by
  simp only [mvOne, hsrc, htarget]
  cases fs.obj (e ++ [m]) with
  | none => rfl
  | some o => exact if_pos rfl

/-- What is not there is not moved. -/
theorem mvOne_of_none (h : ∀ e m, fs.place cwd src = some (e, m) → fs.obj (e ++ [m]) = none) :
    mvOne M cwd dst fs src = fs := by
  unfold mvOne
  split
  · rfl
  · next e m hplace =>
    rw [h e m hplace]
    cases mvTarget fs cwd m dst <;> rfl

end Changes

/-! ### Nothing is lost -/

/-- Every file of a directory is still there, under some name, and no two under one. -/
def NothingLost (d : Path) (fs fs' : FileSystem) : Prop :=
  ∃ now : Str → Str,
    (∀ n c, fs.obj (d ++ [n]) = some (.file c) → fs'.obj (d ++ [now n]) = some (.file c)) ∧
      ∀ n m, fs.isFileAt (d ++ [n]) = true → fs.isFileAt (d ++ [m]) = true → now n = now m → n = m

section NothingLost

variable {d : Path}

theorem NothingLost.refl (fs : FileSystem) : NothingLost d fs fs :=
  ⟨id, fun _ _ h => h, fun _ _ _ _ h => h⟩

theorem NothingLost.trans {fs₁ fs₂ fs₃ : FileSystem} (h : NothingLost d fs₁ fs₂)
    (h' : NothingLost d fs₂ fs₃) : NothingLost d fs₁ fs₃ := by
  obtain ⟨now, hfile, hinj⟩ := h
  obtain ⟨now', hfile', hinj'⟩ := h'
  have hthere : ∀ n, fs₁.isFileAt (d ++ [n]) = true → fs₂.isFileAt (d ++ [now n]) = true := by
    intro n hn
    obtain ⟨c, hc⟩ := isFileAt_iff.mp hn
    exact isFileAt_iff.mpr ⟨c, hfile n c hc⟩
  refine ⟨now' ∘ now, fun n c hn => hfile' _ _ (hfile n c hn), ?_⟩
  intro n m hn hm heq
  exact hinj n m hn hm (hinj' _ _ (hthere n hn) (hthere m hm) heq)

/-- An entry that gets a name that is free. -/
theorem nothingLost_of_obj {fs fs' : FileSystem} {old new : Str} {o : Obj}
    (hold : fs.obj (d ++ [old]) = some o) (hnew : fs.obj (d ++ [new]) = none)
    (h : ∀ r, fs'.obj r =
      if r = d ++ [new] then some o else if r = d ++ [old] then none else fs.obj r) :
    NothingLost d fs fs' := by
  have hfree : ∀ n, fs.isFileAt (d ++ [n]) = true → n ≠ new := by
    rintro n hn rfl
    obtain ⟨c, hc⟩ := isFileAt_iff.mp hn
    rw [hnew] at hc
    cases hc
  refine ⟨fun n => if n = old then new else n, ?_, ?_⟩
  · intro n c hn
    dsimp only
    by_cases hnold : n = old
    · subst hnold
      rw [if_pos rfl, h, if_pos rfl, ← hold, hn]
    · have hnnew := hfree n (isFileAt_iff.mpr ⟨c, hn⟩)
      rw [if_neg hnold, h, if_neg (by simpa using hnnew), if_neg (by simpa using hnold), hn]
  · intro n m hn hm heq
    dsimp only at heq
    split at heq
    · next hnold =>
      split at heq
      · next hmold => rw [hnold, hmold]
      · exact absurd heq.symm (hfree m hm)
    · split at heq
      · exact absurd heq (hfree n hn)
      · exact heq

end NothingLost

end Dfuser
