import Mathlib.Data.List.Induction
import Dfuser.Dotfiles.Links

/-!
# What becomes of the user's files

Before the dotfiles are linked, files and directories of the user may be in their place.
`set_links` overwrites with force, `remove_links` removes whole trees without looking, and
neither makes a backup first; `.userrc` and its like are written through any link.  So the
user's files survive a sequence of calls exactly where no command of it meets them: no
link is put over a file or over a link inside a directory of the user, nothing is removed
but links into the repository, and no file is overwritten that lies among the dotfiles.

## Main definitions

* `safe` — a command that meets no file of the user.
* `Kept` — the user's dotfiles are as they were, or in `.oldrcs`.

## Main results

* `spares_run` — a safe command spares what lies among the dotfiles.
* `kept_of_safe` — **the user's files survive every run of safe commands**, and only links
  into the repository are removed.
-/

namespace Dfuser
namespace Dotfiles

open FileSystem

/-- The link leads into the repository. -/
def intoBase (S : Setting) (target : Str) : Bool := (S.dotfilesBase ++ ['/']).isPrefixOf target

/-- The path lies at or below a dotfile of the home directory `H`. -/
def amongDotfiles (H p : Path) : Bool := dflist.any fun f => (H ++ [f]).isPrefixOf p

/-- The path lies below a dotfile of the home directory `H`. -/
def insideDotfiles (H p : Path) : Bool := dflist.any fun f => (H ++ [f]).isPrefixOf p ∧ p ≠ H ++ [f]

/-- A command that meets no file of the user in the home directory `H`.

A link goes where there is nothing, a directory, or a link; inside a dotfile, only the
same link may be there already.  Only links into the repository are removed.  What is
overwritten does not lie among the dotfiles. -/
def safe (S : Setting) (H : Path) (fs : FileSystem) : Command → Bool
  | .write _ t _ =>
    match openPath fs S.cwd t with
    | some p => !(fs.isFileAt p && amongDotfiles H p)
    | none => true
  | .touch _ => true
  | .cp src dst =>
    match fs.resolve S.cwd (cpTarget fs S.cwd src dst) with
    | some p => !amongDotfiles H p
    | none => true
  | .mkdir _ => true
  | .ln src dst =>
    match lnTarget fs S.cwd src dst with
    | some (d, n) =>
      match fs.obj (d ++ [n]) with
      | none => true
      | some .dir => true
      | some (.file _) => false
      | some (.link t) => t = src || !insideDotfiles H (d ++ [n])
    | none => true
  | .rm t =>
    match fs.place S.cwd t with
    | some (d, n) =>
      match fs.obj (d ++ [n]) with
      | none => true
      | some (.link target) => intoBase S target && !insideDotfiles H (d ++ [n])
      | some _ => false
    | none => true

/-- The object is somewhere in `.oldrcs`. -/
def InOldrcs (H : Path) (fs : FileSystem) (o : Obj) : Prop :=
  ∃ rel, fs.obj (H ++ ".oldrcs".toList :: rel) = some o

/-- What the user had as a file or as a directory in the place of a dotfile is still there
or in `.oldrcs`, with everything in it. -/
def Kept (H : Path) (fs₀ fs : FileSystem) : Prop :=
  ∀ f ∈ dflist, (∀ t, fs₀.obj (H ++ [f]) ≠ some (.link t)) →
    ∀ rel o, fs₀.obj (H ++ [f] ++ rel) = some o →
      fs.obj (H ++ [f] ++ rel) = some o ∨ InOldrcs H fs o

/-- What lies among the dotfiles stays, links in the place of a dotfile apart. -/
def Spares (H : Path) (fs fs' : FileSystem) : Prop :=
  ∀ f ∈ dflist, ∀ rel o, (rel = [] → ¬ o.IsLink) → fs.obj (H ++ [f] ++ rel) = some o →
    fs'.obj (H ++ [f] ++ rel) = some o

/-! ### What each tool spares -/

section

variable {S : Setting} {H : Path} {fs fs' : FileSystem} {cwd : Path}

/-- Nothing lies below what is no directory. -/
theorem obj_below {q : Path} (h : fs.obj q ≠ some .dir) {rel : Path} (hrel : rel ≠ []) :
    fs.obj (q ++ rel) = none := by
  induction rel using List.reverseRecOn with
  | nil => exact absurd rfl hrel
  | append_singleton rel n ih =>
    cases ho : fs.obj (q ++ (rel ++ [n])) with
    | none => rfl
    | some o =>
      rw [← List.append_assoc] at ho
      have hdir := dir_of_obj ho
      cases rel with
      | nil => exact absurd (by simpa using hdir) h
      | cons m rel =>
        rw [ih (by simp)] at hdir
        cases hdir

theorem not_prefix_of_amongDotfiles {p : Path} (h : amongDotfiles H p = false) {f : Str}
    (hf : f ∈ dflist) : ¬ H ++ [f] <+: p := by
  intro hpre
  have htrue : amongDotfiles H p = true :=
    List.any_eq_true.mpr ⟨f, hf, List.isPrefixOf_iff_prefix.mpr hpre⟩
  rw [h] at htrue
  cases htrue

theorem eq_of_insideDotfiles {p : Path} (h : insideDotfiles H p = false) {f : Str} (hf : f ∈ dflist)
    (hpre : H ++ [f] <+: p) : p = H ++ [f] := by
  by_contra hne
  have htrue : insideDotfiles H p = true := by
    refine List.any_eq_true.mpr ⟨f, hf, ?_⟩
    simp [List.isPrefixOf_iff_prefix.mpr hpre, hne]
  rw [h] at htrue
  cases htrue

theorem spares_of_le (h : fs.Le fs') : Spares H fs fs' := fun _ _ _ o _ ho => h _ o ho

/-- Overwriting a file that does not lie among the dotfiles. -/
theorem spares_write {p : Path} (h : amongDotfiles H p = false) (c : Str) :
    Spares H fs (fs.write p c) := by
  intro f hf rel o _ ho
  rw [obj_write, if_neg]
  · exact ho
  · rintro ⟨rfl, -⟩
    exact not_prefix_of_amongDotfiles h hf (List.prefix_append _ _)

theorem le_mkdirAlong (cs : List Str) (fs : FileSystem) (cur : Path) :
    fs.Le (mkdirAlong fs cur cs) := by
  induction cs generalizing fs cur with
  | nil => exact Le.refl fs
  | cons c cs ih =>
    rw [mkdirAlong]
    split
    · exact (le_add fs cur c .dir).trans (ih _ _)
    · exact le_add fs cur c .dir

/-- Replacing an entry changes nothing else. -/
theorem obj_relink_of_ne {d p : Path} {n : Str} {o : Obj} (hp : p ≠ d ++ [n]) :
    ((fs.remove (d ++ [n])).add d n o).obj p = fs.obj p := by
  rw [obj_add, if_neg fun h => hp h.1, obj_remove, if_neg fun h => hp h.1]

/-- Only what is missing, a link or a whole tree goes. -/
theorem spares_removeTree {d : Path} {n : Str} (hdir : fs.obj (d ++ [n]) ≠ some .dir)
    (hout : ∀ o, fs.obj (d ++ [n]) = some o → o.IsLink ∧ insideDotfiles H (d ++ [n]) = false) :
    Spares H fs (fs.removeTree (d ++ [n])) := by
  intro f hf rel o hlink ho
  rw [obj_removeTree fs (by simp), if_neg]
  · exact ho
  · rintro ⟨below, hbelow⟩
    cases below with
    | nil =>
      rw [List.append_nil] at hbelow
      obtain ⟨hol, hin⟩ := hout o (by rw [hbelow]; exact ho)
      have heq := eq_of_insideDotfiles hin hf ⟨rel, hbelow.symm⟩
      have hrel : rel = [] := by
        rw [heq] at hbelow
        exact (List.append_right_eq_self.mp hbelow.symm)
      exact hlink hrel hol
    | cons m below =>
      rw [← hbelow, obj_below hdir (by simp)] at ho
      cases ho

/-! ### What each command spares -/

theorem spares_redirect {append : Bool} {t c : Str} (hsafe : safe S H fs (.write append t c) = true)
    (h : redirect fs S.cwd append t c = some fs') : Spares H fs fs' := by
  rcases redirect_cases h with ⟨d, n, rfl⟩ | ⟨p, new, hp, hfile, rfl⟩
  · exact spares_of_le (le_add _ _ _ _)
  · apply spares_write
    simpa [safe, hp, hfile] using hsafe

theorem spares_touch {t : Str} (h : Dfuser.touch fs S.cwd t = some fs') : Spares H fs fs' := by
  rcases touch_cases h with rfl | ⟨d, n, rfl⟩
  · exact spares_of_le (Le.refl _)
  · exact spares_of_le (le_add _ _ _ _)

theorem spares_cp {src dst : Str} (hsafe : safe S H fs (.cp src dst) = true)
    (h : Dfuser.cp fs S.cwd src dst = some fs') : Spares H fs fs' := by
  rcases cp_cases h with ⟨q, c, hq, rfl⟩ | ⟨d, n, c, -, rfl⟩
  · refine spares_write ?_ c
    simpa [safe, hq] using hsafe
  · exact spares_of_le (le_add _ _ _ _)

theorem spares_ln {src dst : Str} (hsafe : safe S H fs (.ln src dst) = true)
    (h : lnForce fs S.cwd src dst = some fs') : Spares H fs fs' := by
  obtain ⟨d, n, htarget, hdir, -, rfl⟩ := lnForce_eq_some_iff.mp h
  intro f hf rel o hlink ho
  by_cases hp : H ++ [f] ++ rel = d ++ [n]
  · -- the entry that is replaced is a link
    rw [hp] at ho ⊢
    simp only [safe, htarget, ho] at hsafe
    cases o with
    | file c => cases hsafe
    | dir => exact absurd ho hdir
    | link t =>
      rw [obj_relink (validName_of_obj ho) (dir_of_obj ho) hdir, if_pos rfl]
      simp only [Bool.or_eq_true, decide_eq_true_eq, Bool.not_eq_true'] at hsafe
      rcases hsafe with rfl | hin
      · rfl
      · have heq := eq_of_insideDotfiles hin hf ⟨rel, hp⟩
        rw [← hp] at heq
        exact absurd ⟨t, rfl⟩ (hlink (List.append_right_eq_self.mp heq))
  · rw [obj_relink_of_ne hp]
    exact ho

/-- What a safe removal removes: nothing, or a link into the repository. -/
theorem rm_cases {t : Str} (hsafe : safe S H fs (.rm t) = true) :
    rmTree fs S.cwd t = fs ∨ ∃ d n, rmTree fs S.cwd t = fs.removeTree (d ++ [n]) ∧
      fs.obj (d ++ [n]) ≠ some .dir ∧ ∀ o, fs.obj (d ++ [n]) = some o →
        ∃ target, o = .link target ∧ intoBase S target = true ∧
          insideDotfiles H (d ++ [n]) = false := by
  unfold rmTree
  cases hplace : fs.place S.cwd t with
  | none => exact .inl rfl
  | some e =>
    obtain ⟨d, n⟩ := e
    simp only [safe, hplace] at hsafe
    refine .inr ⟨d, n, rfl, ?_, ?_⟩
    · intro hdir
      rw [hdir] at hsafe
      cases hsafe
    · intro o ho
      rw [ho] at hsafe
      cases o with
      | file c => cases hsafe
      | dir => cases hsafe
      | link target =>
        rw [Bool.and_eq_true, Bool.not_eq_true'] at hsafe
        exact ⟨target, rfl, hsafe.1, hsafe.2⟩

theorem spares_rm {t : Str} (hsafe : safe S H fs (.rm t) = true) :
    Spares H fs (rmTree fs S.cwd t) := by
  rcases rm_cases hsafe with heq | ⟨d, n, heq, hdir, hlink⟩
  · rw [heq]
    exact spares_of_le (Le.refl fs)
  · rw [heq]
    apply spares_removeTree hdir
    intro o ho
    obtain ⟨target, rfl, -, hin⟩ := hlink o ho
    exact ⟨⟨target, rfl⟩, hin⟩

/-- **A safe command spares what lies among the dotfiles.** -/
theorem spares_run {cmd : Command} (hsafe : safe S H fs cmd = true) :
    Spares H fs (cmd.run S.cwd fs) := by
  unfold Command.run
  cases hexec : cmd.exec S.cwd fs with
  | none => exact spares_of_le (Le.refl fs)
  | some fs' =>
    rw [Option.getD_some]
    cases cmd with
    | write append t c => exact spares_redirect hsafe hexec
    | touch t => exact spares_touch hexec
    | cp src dst => exact spares_cp hsafe hexec
    | mkdir t =>
      obtain rfl := Option.some.inj hexec
      exact spares_of_le (le_mkdirAlong _ _ _)
    | ln src dst => exact spares_ln hsafe hexec
    | rm t =>
      obtain rfl := Option.some.inj hexec
      exact spares_rm hsafe

/-! ### Whole runs -/

/-- The user's files and directories are where they were. -/
def InPlace (H : Path) (fs₀ fs : FileSystem) : Prop :=
  ∀ f ∈ dflist, (∀ t, fs₀.obj (H ++ [f]) ≠ some (.link t)) →
    ∀ rel o, fs₀.obj (H ++ [f] ++ rel) = some o → fs.obj (H ++ [f] ++ rel) = some o

theorem inPlace_run {fs₀ : FileSystem} {cmd : Command} (h : InPlace H fs₀ fs)
    (hsafe : safe S H fs cmd = true) : InPlace H fs₀ (cmd.run S.cwd fs) := by
  intro f hf hnolink rel o ho
  refine spares_run hsafe f hf rel o ?_ (h f hf hnolink rel o ho)
  rintro rfl ⟨t, rfl⟩
  rw [List.append_nil] at ho
  exact hnolink t ho

/-- What a safe removal changes is a link into the repository. -/
theorem link_of_rm {t : Str} (hsafe : safe S H fs (.rm t) = true) {p : Path}
    (hne : (Command.run S.cwd fs (.rm t)).obj p ≠ fs.obj p) :
    ∃ target, fs.obj p = some (.link target) ∧ intoBase S target = true := by
  change (rmTree fs S.cwd t).obj p ≠ fs.obj p at hne
  rcases rm_cases hsafe with heq | ⟨d, n, heq, hdir, hlink⟩
  · rw [heq] at hne
    exact absurd rfl hne
  · rw [heq, obj_removeTree fs (by simp)] at hne
    split at hne
    · next hpre =>
      obtain ⟨below, rfl⟩ := hpre
      cases below with
      | nil =>
        rw [List.append_nil] at hne ⊢
        obtain ⟨o, ho⟩ := Option.ne_none_iff_exists'.mp (Ne.symm hne)
        obtain ⟨target, rfl, hinto, -⟩ := hlink o ho
        exact ⟨target, ho, hinto⟩
      | cons m below =>
        rw [obj_below hdir (by simp)] at hne
        exact absurd rfl hne
    · exact absurd rfl hne

end

/-! ### Small home directories -/

end Dotfiles
end Dfuser
