import Dfuser.Lib.CommitGraph
import Dfuser.Lib.Coreutils

/-!
# The check for updates

`check_for_updates`, which every new shell runs: it fetches, compares `HEAD`, the
upstream branch and their merge base, and pulls or pushes.  The three values are
compared unquoted, so a value that is empty changes the number of words that `[`
gets: `[ a = ]` is an error, and `[ = ]` is true.

Git is taken to report what is the case; a repository is as `git fetch` leaves it.

## Main definitions

* `Oid`, `Repo` — commit names and repositories.
* `bracket` — the command `[`.
* `checkForUpdates` — the function, as the list of what it does.
* `SafeUpdate` — it pulls and pushes only where it may.

## Main results

* `gitPull_mem`, `gitPush_mem` — when it pulls and when it pushes.
* `safeUpdate_iff` — **when it pulls and pushes only where it may.**
-/

namespace Dfuser
namespace Manager

/-- A commit name: forty hexadecimal digits. -/
structure Oid where
  text : Str
  length : text.length = 40
  hex : ∀ c ∈ text, c ∈ "0123456789abcdef".toList

theorem Oid.ext {a b : Oid} (h : a.text = b.text) : a = b := by
  cases a
  cases b
  cases h
  rfl

/-- What `HEAD` is. -/
inductive Head
  /-- The directory is no repository. -/
  | outside
  /-- A branch without commits. -/
  | unborn
  | commit (c : Oid)

/-- The directory `$DFUSER_GIT_REPO`, as `git fetch` leaves it. -/
structure Repo where
  /-- The directory exists. -/
  installed : Bool
  graph : CommitGraph Oid
  head : Head
  /-- The commit of the upstream branch, if one is configured. -/
  upstream : Option Oid
  /-- What `git merge-base HEAD @{u}` reports. -/
  base : Option Oid
  /-- The lines of `git status --porcelain`, before and after pulling or pushing. -/
  status : List Str
  statusAfter : List Str
  /-- The lines of `git ls-files --others --exclude-standard`. -/
  untracked : List Str
  upstream_outside : head = .outside → upstream = none
  base_of_commits : ∀ h u, head = .commit h → upstream = some u → graph.IsMergeBase h u base
  base_of_none : upstream = none ∨ (∀ h, head ≠ .commit h) → base = none

/-- What the function does. -/
inductive Action
  | echo (line : Str)
  | gitFetch
  | gitPull
  | gitPush
  deriving DecidableEq

/-- The command `[`, for the forms that come up; an error counts as false. -/
def bracket : List Str → Bool
  | [w] => w ≠ []
  | [op, w] => op = "-n".toList ∧ w ≠ []
  | [a, op, b] => op = "=".toList ∧ a = b
  | _ => false

/-- `[ $a = $b ]`, unquoted; the values here have nothing special to the shell. -/
def testEq (a b : Str) : Bool :=
  bracket (fields isBlank a ++ ["=".toList] ++ fields isBlank b)

namespace Repo

variable (r : Repo)

/-- `LOCAL=$(git rev-parse HEAD)` -/
def localRev : Str :=
  match r.head with
  | .outside => []
  | .unborn => "HEAD".toList
  | .commit c => c.text

/-- `REMOTE=$(git rev-parse @{u})` -/
def remoteRev : Str := (r.upstream.map Oid.text).getD []

/-- `BASE=$(git merge-base HEAD @{u})` -/
def baseRev : Str := (r.base.map Oid.text).getD []

end Repo

/-- `has_uncommited_changes` -/
def hasUncommitedChanges (r : Repo) : Bool := bracket ["-n".toList, chomp (unlines r.status)]

/-- What comes after fetching. -/
def compareRevs (r : Repo) : List Action :=
  if testEq r.localRev r.remoteRev then [.echo "DFUSER is up-to-date".toList]
  else if testEq r.localRev r.baseRev then
    [.echo "DFUSER needs to be updated".toList] ++
      (if hasUncommitedChanges r then
        [.echo "DFUSER has uncommited changes".toList,
          .echo "Please commit your changes before updating".toList]
      else []) ++ [.gitPull]
  else if testEq r.remoteRev r.baseRev then
    [.echo "DFUSER is ahead of the remote repository".toList, .gitPush]
  else [.echo "DFUSER has diverged, what the F did you do?".toList]

/-- `check_for_updates` -/
def checkForUpdates (r : Repo) : List Action :=
  if r.installed then
    [.gitFetch] ++ compareRevs r ++
      (if bracket ["-n".toList, chomp (unlines r.statusAfter)] then
        [.echo "DFUSER has uncommited changes".toList] else []) ++
      (if bracket ["-n".toList, chomp (unlines r.untracked)] then
        [.echo "DFUSER has untracked files".toList] else [])
  else [.echo "DFUSER is not installed".toList]

/-- It pulls only over a clean tree and when `HEAD` comes before the upstream commit,
and pushes only when there is an upstream commit that comes before `HEAD`. -/
def SafeUpdate (r : Repo) : Prop :=
  (.gitPull ∈ checkForUpdates r → r.status = [] ∧
    ∃ h u, r.head = .commit h ∧ r.upstream = some u ∧ r.graph.ProperAncestor h u) ∧
  (.gitPush ∈ checkForUpdates r →
    ∃ h u, r.head = .commit h ∧ r.upstream = some u ∧ r.graph.ProperAncestor u h)

/-! ### The tests -/

theorem fields_of_noBlank {a : Str} (h : ∀ c ∈ a, isBlank c = false) :
    fields isBlank a = if a = [] then [] else [a] := by
  split
  · next ha => rw [ha, fields_nil]
  · next ha => exact fields_eq_singleton ha h

/-- A text that `[` compares: no blanks, and not `-n`. -/
structure Comparable (a : Str) : Prop where
  noBlank : ∀ c ∈ a, isBlank c = false
  noOption : a ≠ "-n".toList

/-- Between single words, and between nothing and nothing, `[ a = b ]` compares. -/
theorem testEq_iff {a b : Str} (ha : Comparable a) (hb : Comparable b) :
    testEq a b = true ↔ a = b := by
  rw [testEq, fields_of_noBlank ha.noBlank, fields_of_noBlank hb.noBlank]
  -- an empty value leaves `[` with two words or one, neither of which is a comparison
  by_cases ha' : a = []
  · by_cases hb' : b = []
    · simp [ha', hb', bracket]
    · simp [ha', hb', bracket, Ne.symm hb']
  · by_cases hb' : b = []
    · simpa [ha', hb', bracket] using ha.noOption
    · simp [ha', hb', bracket]

theorem Oid.noBlank (c : Oid) : ∀ x ∈ c.text, isBlank x = false := by
  intro x hx
  have hall : Literal "0123456789abcdef".toList := by decide
  exact (hall x (c.hex x hx)).1

theorem Oid.text_ne_nil (c : Oid) : c.text ≠ [] := by
  intro h
  have hlen := c.length
  rw [h] at hlen
  cases hlen

theorem Oid.comparable (c : Oid) : Comparable c.text := by
  refine ⟨c.noBlank, ?_⟩
  intro h
  have hlen := c.length
  rw [h] at hlen
  cases hlen

theorem comparable_getD_map (o : Option Oid) : Comparable ((o.map Oid.text).getD []) := by
  cases o with
  | none => exact ⟨by simp, by decide⟩
  | some c => exact c.comparable

theorem comparable_localRev (r : Repo) : Comparable r.localRev := by
  unfold Repo.localRev
  split
  · exact ⟨by simp, by decide⟩
  · have hword : Literal "HEAD".toList := by decide
    exact ⟨fun x hx => (hword x hx).1, by decide⟩
  · next c _ => exact c.comparable

/-! ### Pulling and pushing -/

section Actions

variable (r : Repo) {a : Action}

theorem mem_compareRevs (hecho : ∀ line, a ≠ .echo line) : a ∈ compareRevs r ↔
    r.localRev ≠ r.remoteRev ∧
      (r.localRev = r.baseRev ∧ a = .gitPull ∨
        r.localRev ≠ r.baseRev ∧ r.remoteRev = r.baseRev ∧ a = .gitPush) := by
  have h₁ : testEq r.localRev r.remoteRev = true ↔ r.localRev = r.remoteRev :=
    testEq_iff (comparable_localRev r) (comparable_getD_map r.upstream)
  have h₂ : testEq r.localRev r.baseRev = true ↔ r.localRev = r.baseRev :=
    testEq_iff (comparable_localRev r) (comparable_getD_map r.base)
  have h₃ : testEq r.remoteRev r.baseRev = true ↔ r.remoteRev = r.baseRev :=
    testEq_iff (comparable_getD_map r.upstream) (comparable_getD_map r.base)
  have hsome : ∀ c, a ∉ (if hasUncommitedChanges r then
      [Action.echo "DFUSER has uncommited changes".toList, .echo c] else []) := by
    intro c
    split <;> simp only [List.mem_cons, List.not_mem_nil, hecho, or_false, not_false_eq_true]
  unfold compareRevs
  simp only [h₁, h₂, h₃]
  by_cases hr : r.localRev = r.remoteRev
  · rw [if_pos hr, List.mem_singleton]
    simp only [hecho, hr, ne_eq, not_true_eq_false, false_and]
  · rw [if_neg hr]
    by_cases hb : r.localRev = r.baseRev
    · rw [if_pos hb, List.mem_append, List.mem_append, List.mem_singleton, List.mem_singleton]
      simp only [hecho, hsome, false_or]
      exact ⟨fun h => ⟨hr, Or.inl ⟨hb, h⟩⟩, fun h => (h.2.resolve_right fun h' => h'.1 hb).2⟩
    · rw [if_neg hb]
      by_cases hrb : r.remoteRev = r.baseRev
      · rw [if_pos hrb, List.mem_cons, List.mem_singleton]
        simp only [hecho, false_or]
        exact ⟨fun h => ⟨hr, Or.inr ⟨hb, hrb, h⟩⟩,
          fun h => (h.2.resolve_left fun h' => hb h'.1).2.2⟩
      · rw [if_neg hrb, List.mem_singleton]
        simp only [hecho, false_iff, not_and, not_or]
        exact fun _ => ⟨fun h _ => hb h, fun _ h _ => hrb h⟩

theorem mem_checkForUpdates (hecho : ∀ line, a ≠ .echo line) (hfetch : a ≠ .gitFetch) :
    a ∈ checkForUpdates r ↔ r.installed = true ∧ a ∈ compareRevs r := by
  have hnone : ∀ (p : Bool) line, a ∉ (if p then [Action.echo line] else []) := by
    intro p line
    split <;> simp only [List.mem_singleton, List.not_mem_nil, hecho, not_false_eq_true]
  unfold checkForUpdates
  split
  · next h =>
    simp only [h, List.mem_append, List.mem_singleton, hfetch, hnone, false_or, or_false, true_and]
  · next h => simp only [h, List.mem_singleton, hecho, false_and, Bool.false_eq_true]

end Actions

/-- When it pulls. -/
theorem gitPull_mem (r : Repo) : .gitPull ∈ checkForUpdates r ↔
    r.installed = true ∧ r.localRev ≠ r.remoteRev ∧ r.localRev = r.baseRev := by
  rw [mem_checkForUpdates r (by simp) (by simp), mem_compareRevs r (by simp)]
  simp

/-- When it pushes. -/
theorem gitPush_mem (r : Repo) : .gitPush ∈ checkForUpdates r ↔ r.installed = true ∧
    r.localRev ≠ r.remoteRev ∧ r.localRev ≠ r.baseRev ∧ r.remoteRev = r.baseRev := by
  rw [mem_checkForUpdates r (by simp) (by simp), mem_compareRevs r (by simp)]
  simp

/-! ### When it is safe -/

theorem localRev_eq_getD_iff {r : Repo} {h : Oid} (hh : r.head = .commit h) (o : Option Oid) :
    r.localRev = (o.map Oid.text).getD [] ↔ o = some h := by
  rw [Repo.localRev, hh]
  cases o with
  | none => simpa using h.text_ne_nil
  | some u => simpa using ⟨fun he => (Oid.ext he).symm, fun he => by rw [he]⟩

theorem remoteRev_eq_baseRev_iff {r : Repo} {u : Oid} (hu : r.upstream = some u) :
    r.remoteRev = r.baseRev ↔ r.base = some u := by
  rw [Repo.remoteRev, Repo.baseRev, hu]
  cases r.base with
  | none => simpa using u.text_ne_nil
  | some b => simpa using ⟨fun he => (Oid.ext he).symm, fun he => by rw [he]⟩

/-- Without an upstream branch it pushes, unless there is no repository at all. -/
theorem gitPush_mem_of_no_upstream {r : Repo} (hi : r.installed = true) (hh : r.head ≠ .outside)
    (hu : r.upstream = none) : .gitPush ∈ checkForUpdates r := by
  -- `[ = ]` has one word, which is not empty
  have hb : r.base = none := r.base_of_none (Or.inl hu)
  have hlocal : r.localRev ≠ [] := by
    unfold Repo.localRev
    split
    · next ho => exact absurd ho hh
    · decide
    · next c _ => exact c.text_ne_nil
  rw [gitPush_mem, Repo.remoteRev, Repo.baseRev, hu, hb]
  exact ⟨hi, hlocal, hlocal, rfl⟩

/-- A branch without commits is neither pulled nor pushed when there is an upstream. -/
theorem not_mem_of_unborn {r : Repo} {u : Oid} (hh : r.head = .unborn) (hu : r.upstream = some u) :
    .gitPull ∉ checkForUpdates r ∧ .gitPush ∉ checkForUpdates r := by
  have hb : r.base = none := r.base_of_none (Or.inr fun h hc => by rw [hh] at hc; cases hc)
  rw [gitPull_mem, gitPush_mem, Repo.localRev, Repo.remoteRev, Repo.baseRev, hh, hu, hb]
  refine ⟨fun h => ?_, fun h => ?_⟩
  · exact absurd h.2.2 (by decide)
  · exact u.text_ne_nil h.2.2.2

/-- Between two commits, it pulls when `HEAD` comes before the upstream commit. -/
theorem gitPull_mem_of_commits {r : Repo} {h u : Oid} (hh : r.head = .commit h)
    (hu : r.upstream = some u) :
    .gitPull ∈ checkForUpdates r ↔ r.installed = true ∧ r.graph.ProperAncestor h u := by
  have hbase := r.base_of_commits h u hh hu
  have hb : r.localRev = r.baseRev ↔ r.base = some h := localRev_eq_getD_iff hh r.base
  have hr : r.localRev = r.remoteRev ↔ r.upstream = some h := localRev_eq_getD_iff hh r.upstream
  rw [gitPull_mem, ne_eq, hb, hr, hu, CommitGraph.isMergeBase_left hbase,
    CommitGraph.ProperAncestor, Option.some.injEq, and_comm (a := ¬ u = h), ne_eq, eq_comm (a := u)]

/-- Between two commits, what it pushes is ahead of the upstream commit. -/
theorem properAncestor_of_gitPush {r : Repo} {h u : Oid} (hh : r.head = .commit h)
    (hu : r.upstream = some u) (hpush : .gitPush ∈ checkForUpdates r) :
    r.graph.ProperAncestor u h := by
  obtain ⟨-, hne, -, hb⟩ := (gitPush_mem r).mp hpush
  rw [remoteRev_eq_baseRev_iff hu,
    CommitGraph.isMergeBase_right (r.base_of_commits h u hh hu)] at hb
  refine ⟨hb, fun he => hne ?_⟩
  exact (localRev_eq_getD_iff hh r.upstream).mpr (he ▸ hu)

/-- Between two commits, all that can go wrong is a pull over changes. -/
theorem safeUpdate_iff_of_commits {r : Repo} {h u : Oid} (hi : r.installed = true)
    (hh : r.head = .commit h) (hu : r.upstream = some u) :
    SafeUpdate r ↔ (r.graph.ProperAncestor h u → r.status = []) := by
  constructor
  · rintro ⟨hpull, -⟩ hanc
    exact (hpull ((gitPull_mem_of_commits hh hu).mpr ⟨hi, hanc⟩)).1
  · intro hclean
    refine ⟨fun hpull => ?_, fun hpush => ⟨h, u, hh, hu, properAncestor_of_gitPush hh hu hpush⟩⟩
    have hanc := ((gitPull_mem_of_commits hh hu).mp hpull).2
    exact ⟨hclean hanc, h, u, hh, hu, hanc⟩

/-- **When it pulls and pushes only where it may**: when the directory is missing or no
repository, and otherwise when there is an upstream branch and the tree is clean
whenever `HEAD` comes before it. -/
theorem safeUpdate_iff (r : Repo) : SafeUpdate r ↔
    r.installed = false ∨ r.head = .outside ∨
      (r.upstream ≠ none ∧ ∀ h u, r.head = .commit h → r.upstream = some u →
        r.graph.ProperAncestor h u → r.status = []) := by
  cases hi : r.installed with
  | false => simp [SafeUpdate, gitPull_mem, gitPush_mem, hi]
  | true =>
    cases hu : r.upstream with
    | none =>
      -- `REMOTE` and `BASE` are both empty, and `[ = ]` is true
      cases hh : r.head with
      | outside =>
        simp [SafeUpdate, gitPull_mem, gitPush_mem, Repo.localRev, Repo.remoteRev, hh, hu]
      | unborn =>
        have hpush := gitPush_mem_of_no_upstream hi (by simp [hh]) hu
        simp [SafeUpdate, hpush, hh]
      | commit h =>
        have hpush := gitPush_mem_of_no_upstream hi (by simp [hh]) hu
        simp [SafeUpdate, hpush, hu]
    | some u =>
      cases hh : r.head with
      | outside => rw [r.upstream_outside hh] at hu; cases hu
      | unborn =>
        obtain ⟨hpull, hpush⟩ := not_mem_of_unborn hh hu
        simp [SafeUpdate, hpull, hpush]
      | commit h =>
        rw [safeUpdate_iff_of_commits hi hh hu]
        simp

/-- A commit, and no upstream branch. -/
def unpublished : Repo where
  installed := true
  graph := ⟨fun _ => [], fun c h => by
    obtain ⟨b, -, hb⟩ := Relation.TransGen.tail'_iff.mp h
    cases hb⟩
  head := .commit ⟨List.replicate 40 'a', by decide, fun x hx => by
    rw [List.eq_of_mem_replicate hx]
    decide⟩
  upstream := none
  base := none
  status := []
  statusAfter := []
  untracked := []
  upstream_outside := fun h => by cases h
  base_of_commits := fun _ _ _ h => by cases h
  base_of_none := fun _ => rfl

/-- It is pushed. -/
theorem not_safeUpdate_unpublished : ¬ SafeUpdate unpublished := by
  rintro ⟨-, hpush⟩
  obtain ⟨h, u, -, hu, -⟩ := hpush (by decide)
  cases hu

end Manager
end Dfuser
