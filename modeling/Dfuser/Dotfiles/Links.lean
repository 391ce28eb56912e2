import Dfuser.Dotfiles.Backup

/-!
# Setting the links

`set_links` puts a link to `$DOTFILES_BASE/f` at `$HOME/f`, for every dotfile `f`.  `ln`
takes an operand that leads to a directory for a place inside that directory.  As long as
no dotfile is or leads to a directory, in the home directory and in the repository, every
link goes where it should; a second run then finds the links of the first one, which lead
to no directory either, and puts each link where it already is.

The links that are set change where other texts lead: those that pass an entry of the
home directory.  No way to a directory does, which is what keeps all conditions alive
while the links are set one after the other.

## Main definitions

* `LeadsToDir` — an entry is or leads to a directory.
* `Clear` — the files are such that links go where they should.
* `Relinked` — some of the links have been set.

## Main results

* `Clear.relinked` — setting links keeps the files clear.
* `setLinks_of_clear` — **in a clear home directory all links are set, the repository is
  left alone, and a second run changes nothing.**
-/

namespace Dfuser
namespace Dotfiles

open FileSystem

/-- The entry `f` of `d` is a directory, or leads to one through any number of links. -/
def LeadsToDir (fs : FileSystem) (d : Path) (f : Str) : Prop :=
  ∃ n q, walk fs false n d [f] = some q ∧ fs.obj q = some .dir

/-- The files are such that links go where they should: `$HOME` is `H` and
`$DOTFILES_BASE` is `B`. -/
structure Clear (S : Setting) (fs : FileSystem) (H B : Path) : Prop where
  home : walk fs false maxLinks [] (fields (· = '/') S.home) = some H
  homeDir : fs.obj H = some .dir
  base : walk fs false maxLinks [] (fields (· = '/') S.dotfilesBase) = some B
  baseDir : fs.obj B = some .dir
  homeNoDir : ∀ f ∈ dflist, ¬ LeadsToDir fs H f
  baseNoDir : ∀ f ∈ dflist, ¬ LeadsToDir fs B f
  /-- The repository does not lead back to the dotfiles of the home directory. -/
  notBack : ∀ f ∈ dflist, ∀ g ∈ dflist, ∀ n, walk fs false n B [f] ≠ some (H ++ [g])
  /-- The home directory does not lie in the repository, unless the links are there. -/
  outside : B <+: H → ∀ f ∈ dflist, fs.obj (H ++ [f]) = some (.link (S.inBase f))

/-- The links in `done` have been set. -/
structure Relinked (S : Setting) (H : Path) (done : List Str) (fs st : FileSystem) : Prop where
  linked : ∀ f ∈ done, st.obj (H ++ [f]) = some (.link (S.inBase f))
  others : ∀ p, (∀ f ∈ done, p ≠ H ++ [f]) → st.obj p = fs.obj p

/-! ### Following links -/

section

variable {S : Setting} {fs st : FileSystem} {H B : Path} {done : List Str}

theorem comps_inBase (S : Setting) {f : Str} (hf : f ∈ dflist) :
    comps (S.inBase f) = fields (· = '/') S.dotfilesBase ++ [f] :=
  comps_child _ (validName_of_mem_dflist hf)

/-- An entry that is a directory leads to one. -/
theorem leadsToDir_of_dir {d : Path} {f : Str} (h : fs.obj (d ++ [f]) = some .dir) :
    LeadsToDir fs d f := by
  refine ⟨0, d ++ [f], ?_, h⟩
  rw [walk_cons_of_obj h (by rintro ⟨t, ht⟩; cases ht), walk_nil]

/-- An entry that is no link leads to itself. -/
theorem eq_of_walk_of_no_link {d : Path} {f : Str} (hname : ValidName f)
    (h : ∀ t, fs.obj (d ++ [f]) ≠ some (.link t)) {n : ℕ} {q : Path}
    (hwalk : walk fs false n d [f] = some q) : q = d ++ [f] := by
  cases ho : fs.obj (d ++ [f]) with
  | none =>
    rw [walk_cons_of_none hname ho] at hwalk
    cases hwalk
  | some o =>
    have hlink : ¬ o.IsLink := by
      rintro ⟨t, rfl⟩
      exact h t ho
    rw [walk_cons_of_obj ho hlink, walk_nil] at hwalk
    exact (Option.some.inj hwalk).symm

/-- The way over a link to the repository. -/
theorem walk_of_linked {f : Str} (hf : f ∈ dflist)
    (h : st.obj (H ++ [f]) = some (.link (S.inBase f))) {n : ℕ} {q : Path}
    (hwalk : walk st false n H [f] = some q) :
    ∃ m < n, walk st false m [] (fields (· = '/') S.dotfilesBase ++ [f]) = some q := by
  have habs : (S.inBase f).head? = some '/' := head?_child_of_absolute S.base_absolute f
  rw [walk_cons_of_link h, if_pos habs, comps_inBase S hf] at hwalk
  cases n with
  | zero => cases hwalk
  | succ m => exact ⟨m, Nat.lt_succ_self m, by simpa using hwalk⟩

theorem Clear.not_dir (hc : Clear S fs H B) {f : Str} (hf : f ∈ dflist) :
    fs.obj (H ++ [f]) ≠ some .dir := fun h => hc.homeNoDir f hf (leadsToDir_of_dir h)

/-- The two file systems differ in the entries whose links have been set. -/
theorem Relinked.walk_or_passes (hr : Relinked S H done fs st) {n : ℕ} {cur p : Path}
    {cs : List Str} (h : walk st false n cur cs = some p) :
    walk fs false n cur cs = some p ∨
      ∃ g ∈ done, ∃ m ≤ n, ∃ q, walk st false m H [g] = some q ∧
        (q = p ∨ st.obj q = some .dir) := by
  have hQ : ∀ q, (∃ g ∈ done, q = H ++ [g]) → st.obj q ≠ some .dir := by
    rintro q ⟨g, hg, rfl⟩ hdir
    rw [hr.linked g hg] at hdir
    cases hdir
  have hsame : ∀ q, ¬ (∃ g ∈ done, q = H ++ [g]) → fs.obj q = st.obj q := by
    intro q hq
    refine (hr.others q fun g hg hqg => hq ⟨g, hg, hqg⟩).symm
  rcases FileSystem.walk_or_passes hQ hsame h with h | ⟨d, c, m, q, ⟨g, hg, hdc⟩, -, hm, hq, hend⟩
  · exact .inl h
  · obtain ⟨rfl, hcg⟩ := List.append_inj' hdc rfl
    obtain rfl := (List.cons.inj hcg).1
    exact .inr ⟨_, hg, m, hm, q, hq, hend⟩

theorem Relinked.dir (hr : Relinked S H done fs st) {q : Path} (h : st.obj q = some .dir) :
    fs.obj q = some .dir := by
  rw [← hr.others q, h]
  rintro f hf rfl
  rw [hr.linked f hf] at h
  cases h

/-! ### Setting links keeps the files clear -/

section Kept

variable (hc : Clear S fs H B) (hr : Relinked S H done fs st) (hdone : ∀ f ∈ done, f ∈ dflist)

include hc hr hdone

/-- No dotfile of the home directory comes to lead to a directory.  The induction is on
the number of links that may be followed. -/
theorem Clear.homeNoDir_relinked {f : Str} (hf : f ∈ dflist) : ¬ LeadsToDir st H f := by
  rintro ⟨n, q, hwalk, hdir⟩
  induction n using Nat.strong_induction_on generalizing f q with
  | _ n ih =>
    have hdir' := hr.dir hdir
    -- a shorter way that passes a link to the repository is excluded already
    have hpass : ∀ m < n, ∀ g ∈ done, ∀ m' ≤ m, ∀ q', walk st false m' H [g] = some q' →
        (q' = q ∨ st.obj q' = some .dir) → False := by
      intro m hm g hg m' hm' q' hq' hend
      refine ih m' (by omega) (hdone g hg) q' hq' ?_
      rcases hend with rfl | hend
      · exact hdir
      · exact hend
    by_cases hfd : f ∈ done
    · obtain ⟨m, hm, hbase⟩ := walk_of_linked hf (hr.linked f hfd) hwalk
      rcases hr.walk_or_passes hbase with h | ⟨g, hg, m', hm', q', hq', hend⟩
      · obtain ⟨k, -, hk⟩ := walk_append_le h hc.base
        exact hc.baseNoDir f hf ⟨k, q, hk, hdir'⟩
      · exact hpass m hm g hg m' hm' q' hq' hend
    · have hsame : st.obj (H ++ [f]) = fs.obj (H ++ [f]) := by
        refine hr.others _ fun g hg h => hfd ?_
        rw [(List.cons.inj (List.append_inj' h rfl).2).1]
        exact hg
      cases ho : fs.obj (H ++ [f]) with
      | none =>
        rw [walk_cons_of_none (validName_of_mem_dflist hf) (hsame.trans ho)] at hwalk
        cases hwalk
      | some o =>
        cases o with
        | dir => exact hc.not_dir hf ho
        | file c =>
          rw [walk_cons_of_obj (hsame.trans ho) (by rintro ⟨t, ht⟩; cases ht), walk_nil,
            Option.some.injEq] at hwalk
          rw [← hwalk, hsame, ho] at hdir
          cases hdir
        | link t =>
          rw [walk_cons_of_link (hsame.trans ho)] at hwalk
          cases n with
          | zero => cases hwalk
          | succ m =>
            rcases hr.walk_or_passes hwalk with h | ⟨g, hg, m', hm', q', hq', hend⟩
            · refine hc.homeNoDir f hf ⟨m + 1, q, ?_, hdir'⟩
              rw [walk_cons_of_link ho]
              exact h
            · exact hpass m (Nat.lt_succ_self m) g hg m' hm' q' hq' hend

theorem Clear.baseNoDir_relinked {f : Str} (hf : f ∈ dflist) : ¬ LeadsToDir st B f := by
  rintro ⟨n, q, hwalk, hdir⟩
  rcases hr.walk_or_passes hwalk with h | ⟨g, hg, m, -, q', hq', hend⟩
  · exact hc.baseNoDir f hf ⟨n, q, h, hr.dir hdir⟩
  · refine hc.homeNoDir_relinked hr hdone (hdone g hg) ⟨m, q', hq', ?_⟩
    rcases hend with rfl | hend
    · exact hdir
    · exact hend

/-- The ways to the two directories stay as they are. -/
theorem Clear.walk_relinked {cs : List Str} {d : Path} {n : ℕ} (h : walk fs false n [] cs = some d)
    (hd : fs.obj d = some .dir) : walk st false n [] cs = some d := by
  have hQ : ∀ q, (∃ g ∈ done, q = H ++ [g]) → fs.obj q ≠ some .dir := by
    rintro q ⟨g, hg, rfl⟩
    exact hc.not_dir (hdone g hg)
  have hsame : ∀ q, ¬ (∃ g ∈ done, q = H ++ [g]) → st.obj q = fs.obj q :=
    fun q hq => hr.others q fun g hg hqg => hq ⟨g, hg, hqg⟩
  rcases FileSystem.walk_or_passes hQ hsame h with h | ⟨e, c, m, q, ⟨g, hg, hdc⟩, -, -, hq, hend⟩
  · exact h
  · obtain ⟨rfl, hcg⟩ := List.append_inj' hdc rfl
    obtain rfl := (List.cons.inj hcg).1
    refine absurd ⟨m, q, hq, ?_⟩ (hc.homeNoDir _ (hdone _ hg))
    rcases hend with rfl | hend
    · exact hd
    · exact hend

theorem Clear.dir_relinked {d : Path} (hd : fs.obj d = some .dir) : st.obj d = some .dir := by
  rw [hr.others d, hd]
  rintro f hf rfl
  exact hc.not_dir (hdone f hf) hd

theorem Clear.notBack_relinked {f g : Str} (hf : f ∈ dflist) (hg : g ∈ dflist) (n : ℕ) :
    walk st false n B [f] ≠ some (H ++ [g]) := by
  induction n using Nat.strong_induction_on generalizing f with
  | _ n ih =>
    intro hwalk
    rcases hr.walk_or_passes hwalk with h | ⟨g', hg', m, hm, q, hq, hend⟩
    · exact hc.notBack f hf g hg n h
    · rcases hend with rfl | hdir
      · -- over a link that has been set, the way leads to the repository once more
        obtain ⟨k, hk, hbase⟩ := walk_of_linked (hdone g' hg') (hr.linked g' hg') hq
        obtain ⟨j, hj, hrest⟩ :=
          walk_append_le hbase (hc.walk_relinked hr hdone hc.base hc.baseDir)
        exact ih j (by omega) (hdone g' hg') hrest
      · exact hc.homeNoDir_relinked hr hdone (hdone g' hg') ⟨m, q, hq, hdir⟩

/-- **Setting links keeps the files clear.** -/
theorem Clear.relinked : Clear S st H B where
  home := hc.walk_relinked hr hdone hc.home hc.homeDir
  homeDir := hc.dir_relinked hr hdone hc.homeDir
  base := hc.walk_relinked hr hdone hc.base hc.baseDir
  baseDir := hc.dir_relinked hr hdone hc.baseDir
  homeNoDir := fun _ hf => hc.homeNoDir_relinked hr hdone hf
  baseNoDir := fun _ hf => hc.baseNoDir_relinked hr hdone hf
  notBack := fun _ hf _ hg n => hc.notBack_relinked hr hdone hf hg n
  outside := by
    intro hin f hf
    by_cases hfd : f ∈ done
    · exact hr.linked f hfd
    · rw [hr.others, hc.outside hin f hf]
      intro g hg h
      exact hfd ((List.cons.inj (List.append_inj' h rfl).2).1 ▸ hg)

end Kept

/-! ### Setting one link after the other -/

/-- In clear files a link goes to the home directory itself. -/
theorem Clear.lnTarget_eq (hc : Clear S fs H B) {f : Str} (hf : f ∈ dflist) :
    lnTarget fs S.cwd (S.inBase f) (S.inHome f) = some (H, f) := by
  have hname := validName_of_mem_dflist hf
  have hplace : fs.place S.cwd (S.inHome f) = some (H, f) :=
    place_child_of_absolute S.home_absolute hname hc.home hc.homeDir S.cwd
  unfold lnTarget
  cases hres : fs.resolve S.cwd (S.inHome f) with
  | none => exact hplace
  | some d =>
    have hdir : fs.obj d ≠ some .dir := by
      intro hdir
      rw [Setting.inHome, resolve_child_of_absolute S.home_absolute hname] at hres
      obtain ⟨m, -, hm⟩ := walk_append_le hres hc.home
      exact hc.homeNoDir f hf ⟨m, d, hm, hdir⟩
    simp only [if_neg hdir, hplace]

theorem Clear.obj_run_ln (hc : Clear S fs H B) {f : Str} (hf : f ∈ dflist) (p : Path) :
    (Command.run S.cwd fs (.ln (S.inBase f) (S.inHome f))).obj p =
      if p = H ++ [f] then some (.link (S.inBase f)) else fs.obj p := by
  have hname := validName_of_mem_dflist hf
  have hback : fs.resolve S.cwd (S.inBase f) ≠ some (H ++ [f]) := by
    intro hres
    rw [Setting.inBase, resolve_child_of_absolute S.base_absolute hname] at hres
    obtain ⟨m, -, hm⟩ := walk_append_le hres hc.base
    exact hc.notBack f hf f hf m hm
  have hln : lnForce fs S.cwd (S.inBase f) (S.inHome f) =
      some ((fs.remove (H ++ [f])).add H f (.link (S.inBase f))) :=
    lnForce_eq_some_iff.mpr ⟨H, f, hc.lnTarget_eq hf, hc.not_dir hf, hback, rfl⟩
  rw [run_ln, hln, Option.getD_some, obj_relink hname hc.homeDir (hc.not_dir hf)]

theorem Relinked.step (hc : Clear S fs H B) (hr : Relinked S H done fs st)
    (hdone : ∀ f ∈ done, f ∈ dflist) {f : Str} (hf : f ∈ dflist) :
    Relinked S H (f :: done) fs (Command.run S.cwd st (.ln (S.inBase f) (S.inHome f))) := by
  have hobj := (hc.relinked hr hdone).obj_run_ln hf
  refine ⟨fun g hg => ?_, fun p hp => ?_⟩
  · rw [hobj]
    by_cases hgf : g = f
    · rw [hgf, if_pos rfl]
    · have hne : H ++ [g] ≠ H ++ [f] := fun h =>
        hgf (List.cons.inj (List.append_inj' h rfl).2).1
      rw [if_neg hne]
      exact hr.linked g ((List.mem_cons.mp hg).resolve_left hgf)
  · rw [List.forall_mem_cons] at hp
    rw [hobj, if_neg hp.1, hr.others p hp.2]

theorem Relinked.foldl (hc : Clear S fs H B) {names : List Str} (hr : Relinked S H done fs st)
    (hdone : ∀ f ∈ done, f ∈ dflist) (hnames : ∀ f ∈ names, f ∈ dflist) :
    Relinked S H (names.reverse ++ done) fs
      (runAll S.cwd st (names.map fun f => .ln (S.inBase f) (S.inHome f))) := by
  induction names generalizing done st with
  | nil => exact hr
  | cons f names ih =>
    rw [List.forall_mem_cons] at hnames
    rw [List.reverse_cons, List.append_assoc]
    exact ih (hr.step hc hdone hnames.1) (List.forall_mem_cons.mpr ⟨hnames.1, hdone⟩) hnames.2

/-- All links have been set. -/
theorem Clear.relinked_setLinks (hc : Clear S fs H B) :
    Relinked S H dflist fs (runAll S.cwd fs (setLinks S)) := by
  have hr : Relinked S H [] fs fs := ⟨fun f hf => (List.not_mem_nil hf).elim, fun p _ => rfl⟩
  have hall := Relinked.foldl hc hr (fun f hf => (List.not_mem_nil hf).elim) fun f hf => hf
  rw [List.append_nil] at hall
  exact ⟨fun f hf => hall.linked f (List.mem_reverse.mpr hf),
    fun p hp => hall.others p fun f hf => hp f (List.mem_reverse.mp hf)⟩

end

/-! ### Two small repositories -/

/-- A home directory, and a repository with `.bashrc` in it. -/
def fileRepository : FileSystem :=
  (bareHome.add [] "b".toList .dir).add ["b".toList] ".bashrc".toList (.file "alias l=ls".toList)

/-- A home directory, and a repository with the directory `.vim` in it. -/
def dirRepository : FileSystem :=
  (bareHome.add [] "b".toList .dir).add ["b".toList] ".vim".toList .dir

theorem clear_fileRepository :
    Clear smallSetting fileRepository ["u".toList] ["b".toList] := by
  have hhome : ∀ f ∈ dflist, fileRepository.obj (["u".toList] ++ [f]) = none := by decide +kernel
  have hbase : ∀ f ∈ dflist, fileRepository.obj (["b".toList] ++ [f]) = none ∨
      fileRepository.isFileAt (["b".toList] ++ [f]) = true := by decide +kernel
  have hbase' : ∀ f ∈ dflist, ∀ o, fileRepository.obj (["b".toList] ++ [f]) = some o →
      ∃ c, o = .file c := by
    intro f hf o ho
    rcases hbase f hf with hnone | hfile
    · rw [hnone] at ho
      cases ho
    · obtain ⟨c, hc⟩ := isFileAt_iff.mp hfile
      exact ⟨c, Option.some.inj (ho.symm.trans hc)⟩
  have hnolink : ∀ f ∈ dflist, ∀ t, fileRepository.obj (["b".toList] ++ [f]) ≠ some (.link t) := by
    intro f hf t ht
    obtain ⟨c, hc⟩ := hbase' f hf _ ht
    cases hc
  refine ⟨by decide +kernel, by decide +kernel, by decide +kernel, by decide +kernel, ?_, ?_, ?_,
    ?_⟩
  · rintro f hf ⟨n, q, hwalk, -⟩
    rw [walk_cons_of_none (validName_of_mem_dflist hf) (hhome f hf)] at hwalk
    cases hwalk
  · rintro f hf ⟨n, q, hwalk, hdir⟩
    obtain rfl := eq_of_walk_of_no_link (validName_of_mem_dflist hf) (hnolink f hf) hwalk
    obtain ⟨c, hc⟩ := hbase' f hf _ hdir
    cases hc
  · intro f hf g _ n hwalk
    have heq := eq_of_walk_of_no_link (validName_of_mem_dflist hf) (hnolink f hf) hwalk
    have hroot : "u".toList = "b".toList := (List.cons.inj heq).1
    revert hroot
    decide
  · intro hpre
    revert hpre
    decide

end Dotfiles
end Dfuser
