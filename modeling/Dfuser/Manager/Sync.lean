import Dfuser.Lib.Clones
import Dfuser.Lib.Replicas
import Dfuser.Lib.Run
import Dfuser.Manager.Updates

/-!
# Machines that check for updates

Every new shell on every machine runs `check_for_updates` on the clone of the repository
that its machine has.  A check is a sequence of git commands, and between two of them
anything may happen: other shells run their checks, on this machine and on others, and
commits are made.  A state is what the branches name and how far each shell is; an event is
a commit, or the next command of a shell.

Every machine has the repository installed, on a branch that tracks the remote one.
Commands of git may fail: the remote may be out of reach, a pull may be refused after it
has fetched, and a pull of what does not come after `HEAD` may make a merge commit.

## Main definitions

* `Shell`, `Net`, `step` — shells, states, and the effect of an event.
* `Allowed` — the commits that can be made.
* `Net.check` — a check that nothing disturbs.

## Main results

* `moves_of_step` — **an event is a sequence of steps of one clone.**
* `nothing_lost` — in every run branches only move forward, and what two clones have is
  published.
* `pull_fastForwards` — no merge is made where no check is disturbed on its own machine.
* `stays_diverged` — a clone that has diverged stays so, whatever the others do.
* `checks_agree_iff` — when checking makes all clones agree.
* `sessions_publish` — work in sessions ends up published.
-/

namespace Dfuser
namespace Manager
namespace Sync

/-- All commits there are or will be, and what `git merge-base` reports about them. -/
structure Commits where
  graph : CommitGraph Oid
  mergeBase : Oid → Oid → Option Oid
  isMergeBase : ∀ a b, graph.IsMergeBase a b (mergeBase a b)

instance : DecidableEq Oid := fun a b =>
  decidable_of_iff (a.text = b.text) ⟨Oid.ext, congrArg Oid.text⟩

/-- Git's test whether one commit comes before another. -/
def Commits.comesBefore (G : Commits) (a b : Oid) : Bool := G.mergeBase a b = some a

/-- How far a shell is in `check_for_updates`, with the variables that it has set. -/
inductive Shell
  | idle
  /-- `git fetch` has run. -/
  | fetched
  /-- `LOCAL` is set. -/
  | hasLocal (local_ : Str)
  /-- `REMOTE` is set too. -/
  | hasRemote (local_ remote : Str)
  /-- It has come to `git pull`. -/
  | pulling
  /-- It has come to `git push`. -/
  | pushing
  deriving DecidableEq

/-- What the branches name, and how far each shell is. -/
structure Net (ι σ : Type*) extends Refs ι Oid where
  shell : σ → Shell

/-- How a command of git ends. -/
inductive Outcome
  | ok
  /-- The remote is out of reach. -/
  | unreachable
  /-- Nothing is merged, or the push is rejected. -/
  | refused
  /-- A merge commit is made. -/
  | merged (m : Oid)

/-- A commit is made in a clone, or a shell runs its next command. -/
inductive Event (ι σ : Type*)
  | commit (i : ι) (c : Oid)
  | advance (p : σ) (o : Outcome)

variable {ι σ : Type*}

/-! ### The commands of git -/

section Git

variable [DecidableEq ι] (G : Commits) (R : Refs ι Oid) (i : ι)

/-- `git fetch` in clone `i`. -/
def gitFetch : Outcome → Refs ι Oid
  | .unreachable => R
  | _ => R.fetch i

/-- `git pull` in clone `i`: it fetches, and moves `HEAD` forward where it can. -/
def gitPull : Outcome → Refs ι Oid
  | .unreachable => R
  | .refused => R.fetch i
  | .ok => if G.comesBefore (R.head i) R.remote then (R.fetch i).extend i R.remote else R.fetch i
  | .merged m => (R.fetch i).extend i m

/-- `git push` in clone `i`: only a step forward is accepted. -/
def gitPush : Outcome → Refs ι Oid
  | .ok => if G.comesBefore R.remote (R.head i) then R.publish i else R
  | _ => R

end Git

/-! ### The checks -/

/-- What a shell does after comparing the three variables. -/
def compareTexts (local_ remote base : Str) : Shell :=
  if testEq local_ remote then .idle
  else if testEq local_ base then .pulling
  else if testEq remote base then .pushing
  else .idle

/-- `BASE=$(git merge-base HEAD @{u})` -/
def Commits.baseText (G : Commits) (a b : Oid) : Str := ((G.mergeBase a b).map Oid.text).getD []

section Steps

variable [DecidableEq ι] [DecidableEq σ] (G : Commits) (home : σ → ι)

/-- What the next command of a shell does to the branches. -/
def act (N : Net ι σ) (p : σ) (o : Outcome) : Refs ι Oid :=
  match N.shell p with
  | .idle => gitFetch N.toRefs (home p) o
  | .pulling => gitPull G N.toRefs (home p) o
  | .pushing => gitPush G N.toRefs (home p) o
  | _ => N.toRefs

/-- How far the shell is then. -/
def next (N : Net ι σ) (p : σ) : Shell :=
  match N.shell p with
  | .idle => .fetched
  | .fetched => .hasLocal (N.head (home p)).text
  | .hasLocal local_ => .hasRemote local_ (N.tracking (home p)).text
  | .hasRemote local_ remote =>
    compareTexts local_ remote (G.baseText (N.head (home p)) (N.tracking (home p)))
  | .pulling => .idle
  | .pushing => .idle

/-- The effect of an event. -/
def step (N : Net ι σ) : Event ι σ → Net ι σ
  | .commit i c => { N with toRefs := N.extend i c }
  | .advance p o => ⟨act G home N p o, Function.update N.shell p (next G home N p)⟩

/-- The state after a run. -/
def run (N : Net ι σ) (es : List (Event ι σ)) : Net ι σ := es.foldl (step G home) N

/-- A commit is new, and made on top of commits that the clone has; a merge is made by a
pull of what neither comes after `HEAD` nor before it. -/
def Allowed (N : Net ι σ) : Event ι σ → Prop
  | .commit i c => N.head i ∈ G.graph.parents c ∧ (∀ a ∈ G.graph.parents c, N.Known G.graph i a) ∧
      N.New G.graph c
  | .advance p (.merged m) => N.shell p = .pulling ∧
      G.graph.parents m = [N.head (home p), N.remote] ∧ N.New G.graph m ∧
      ¬ G.graph.Ancestor (N.head (home p)) N.remote ∧
      ¬ G.graph.Ancestor N.remote (N.head (home p))
  | .advance _ _ => True

/-- A check that nothing disturbs, all of whose commands succeed. -/
def Net.check (N : Net ι σ) (p : σ) : Net ι σ :=
  let N := run G home N (List.replicate 4 (.advance p .ok))
  if N.shell p = .idle then N else step G home N (.advance p .ok)

/-- Such checks, one after another. -/
def Net.checks (N : Net ι σ) (l : List σ) : Net ι σ := l.foldl (Net.check G home) N

end Steps

/-! ### The tests -/

section Tests

variable {G : Commits} {a b : Oid}

theorem Commits.comesBefore_iff : G.comesBefore a b = true ↔ G.graph.Ancestor a b := by
  rw [comesBefore, decide_eq_true_eq]
  exact CommitGraph.isMergeBase_left (G.isMergeBase a b)

theorem comparable_baseText : Comparable (G.baseText a b) := comparable_getD_map _

theorem text_eq_baseText_iff {c : Oid} : c.text = G.baseText a b ↔ G.mergeBase a b = some c := by
  rw [Commits.baseText]
  cases G.mergeBase a b with
  | none => simpa using c.text_ne_nil
  | some m => simpa using ⟨fun h => (Oid.ext h).symm, fun h => by rw [h]⟩

/-- The tests compare commits. -/
theorem compareTexts_eq (G : Commits) (a b : Oid) : compareTexts a.text b.text (G.baseText a b) =
    if a = b then .idle else if G.comesBefore a b then .pulling
    else if G.comesBefore b a then .pushing else .idle := by
  have hlocal : testEq a.text b.text = true ↔ a = b :=
    (testEq_iff a.comparable b.comparable).trans ⟨Oid.ext, congrArg Oid.text⟩
  have hpull : testEq a.text (G.baseText a b) = true ↔ G.comesBefore a b = true := by
    rw [testEq_iff a.comparable comparable_baseText, text_eq_baseText_iff, Commits.comesBefore,
      decide_eq_true_eq]
  have hpush : testEq b.text (G.baseText a b) = true ↔ G.comesBefore b a = true := by
    rw [testEq_iff b.comparable comparable_baseText, text_eq_baseText_iff,
      CommitGraph.isMergeBase_right (G.isMergeBase a b), Commits.comesBefore_iff]
  simp only [compareTexts, hlocal, hpull, hpush]

/-- Whatever `REMOTE` is, it does not come to a pull of what is not after `HEAD`. -/
theorem compareTexts_ne_pulling (h : ¬ G.graph.Ancestor a b) (remote : Str) :
    compareTexts a.text remote (G.baseText a b) ≠ .pulling := by
  have hbase : testEq a.text (G.baseText a b) = false := by
    rw [← Bool.not_eq_true, testEq_iff a.comparable comparable_baseText, text_eq_baseText_iff,
      CommitGraph.isMergeBase_left (G.isMergeBase a b)]
    exact h
  rw [compareTexts, hbase]
  simp only [Bool.false_eq_true, if_false]
  split
  · nofun
  · split <;> nofun

/-- The tests are those of `compareRevs`. -/
theorem compareTexts_eq_pulling_iff (r : Repo) :
    compareTexts r.localRev r.remoteRev r.baseRev = .pulling ↔ .gitPull ∈ compareRevs r := by
  rw [mem_compareRevs r (by simp), compareTexts]
  have hbase : Comparable r.baseRev := comparable_getD_map r.base
  have hremote : Comparable r.remoteRev := comparable_getD_map r.upstream
  simp only [testEq_iff (comparable_localRev r) hremote, testEq_iff (comparable_localRev r) hbase,
    testEq_iff hremote hbase]
  grind

theorem compareTexts_eq_pushing_iff (r : Repo) :
    compareTexts r.localRev r.remoteRev r.baseRev = .pushing ↔ .gitPush ∈ compareRevs r := by
  rw [mem_compareRevs r (by simp), compareTexts]
  have hbase : Comparable r.baseRev := comparable_getD_map r.base
  have hremote : Comparable r.remoteRev := comparable_getD_map r.upstream
  simp only [testEq_iff (comparable_localRev r) hremote, testEq_iff (comparable_localRev r) hbase,
    testEq_iff hremote hbase]
  grind

end Tests

/-! ### What an event does to the branches -/

section Moves

variable [DecidableEq ι] {G : Commits} {R : Refs ι Oid} {i j : ι}

theorem moves_gitFetch (o : Outcome) :
    Relation.ReflTransGen (Refs.Move G.graph) R (gitFetch R i o) := by
  cases o with
  | unreachable => exact .refl
  | ok | refused | merged => exact .single (.fetch R i)

theorem moves_gitPush (o : Outcome) :
    Relation.ReflTransGen (Refs.Move G.graph) R (gitPush G R i o) := by
  cases o with
  | ok =>
    rw [gitPush]
    split
    · next h => exact .single (.publish R i (Commits.comesBefore_iff.mp h))
    · exact .refl
  | unreachable | refused | merged => exact .refl

/-- A commit made by a pull is one on top of what has been fetched. -/
theorem moves_gitPull {o : Outcome} (h : ∀ m, o = .merged m →
      G.graph.parents m = [R.head i, R.remote] ∧ R.New G.graph m) :
    Relation.ReflTransGen (Refs.Move G.graph) R (gitPull G R i o) := by
  have hfetch : Relation.ReflTransGen (Refs.Move G.graph) R (R.fetch i) := .single (.fetch R i)
  cases o with
  | unreachable => exact .refl
  | refused => exact hfetch
  | ok =>
    rw [gitPull]
    split
    · next hle =>
      have hmove := Refs.Move.forward (g := G.graph) (R.fetch i) i
        (by rw [Refs.tracking_fetch]; exact Commits.comesBefore_iff.mp hle)
      rw [Refs.tracking_fetch] at hmove
      exact hfetch.tail hmove
    · exact hfetch
  | merged m =>
    obtain ⟨hparents, hnew⟩ := h m rfl
    refine hfetch.tail (.extend (R.fetch i) i m ?_ ?_ ⟨hnew.1, fun k => ?_⟩)
    · rw [hparents]
      exact List.mem_cons_self
    · intro a ha
      rw [hparents, List.mem_cons, List.mem_singleton] at ha
      rcases ha with rfl | rfl
      · exact .inl (G.graph.ancestor_refl _)
      · rw [Refs.Known, Refs.tracking_fetch]
        exact .inr (G.graph.ancestor_refl _)
    · by_cases hk : k = i
      · subst hk
        rw [Refs.Known, Refs.tracking_fetch, not_or]
        exact ⟨fun hm => hnew.2 k (.inl hm), hnew.1⟩
      · rw [Refs.Known, Refs.tracking_fetch_of_ne hk]
        exact hnew.2 k

/-- The branch of another clone is left alone. -/
theorem head_gitPull_of_ne (h : j ≠ i) (o : Outcome) : (gitPull G R i o).head j = R.head j := by
  cases o with
  | unreachable | refused => rfl
  | ok =>
    rw [gitPull]
    split
    · exact Refs.head_extend_of_ne h
    · rfl
  | merged m => exact Refs.head_extend_of_ne h

theorem tracking_gitPull_of_ne (h : j ≠ i) (o : Outcome) :
    (gitPull G R i o).tracking j = R.tracking j := by
  cases o with
  | unreachable => rfl
  | refused => exact Refs.tracking_fetch_of_ne h
  | ok =>
    rw [gitPull]
    split
    · exact Refs.tracking_fetch_of_ne h
    · exact Refs.tracking_fetch_of_ne h
  | merged m => exact Refs.tracking_fetch_of_ne h

theorem head_gitPush (o : Outcome) : (gitPush G R i o).head = R.head := by
  cases o with
  | ok =>
    rw [gitPush]
    split <;> rfl
  | unreachable | refused | merged => rfl

theorem tracking_gitPush_of_ne (h : j ≠ i) (o : Outcome) :
    (gitPush G R i o).tracking j = R.tracking j := by
  cases o with
  | ok =>
    rw [gitPush]
    split
    · exact Refs.tracking_publish_of_ne h
    · rfl
  | unreachable | refused | merged => rfl

theorem head_gitFetch (o : Outcome) : (gitFetch R i o).head = R.head := by
  cases o <;> rfl

theorem tracking_gitFetch_of_ne (h : j ≠ i) (o : Outcome) :
    (gitFetch R i o).tracking j = R.tracking j := by
  cases o with
  | unreachable => rfl
  | ok | refused | merged => exact Refs.tracking_fetch_of_ne h

end Moves

/-! ### Two machines -/

/-- The name of a commit that consists of one digit. -/
def oidOf (c : Char) (h : c ∈ "0123456789abcdef".toList) : Oid :=
  ⟨List.replicate 40 c, List.length_replicate, fun _ hd => List.eq_of_mem_replicate hd ▸ h⟩

def commitA : Oid := oidOf 'a' (by decide)

def commitB : Oid := oidOf 'b' (by decide)

def commitC : Oid := oidOf 'c' (by decide)

/-- Two commits on top of a third. -/
def forkedParents (c : Oid) : List Oid := if c = commitB ∨ c = commitC then [commitA] else []

theorem mem_forkedParents {a b : Oid} :
    a ∈ forkedParents b ↔ a = commitA ∧ (b = commitB ∨ b = commitC) := by
  rw [forkedParents]
  split
  · next h => simp [h]
  · next h => simp [h]

def forkedGraph : CommitGraph Oid where
  parents := forkedParents
  acyclic c h := by
    obtain ⟨a, ha, -⟩ := Relation.TransGen.head'_iff.mp h
    obtain ⟨b, -, hb⟩ := Relation.TransGen.tail'_iff.mp h
    obtain ⟨rfl, -⟩ := mem_forkedParents.mp ha
    exact absurd (mem_forkedParents.mp hb).2 (by decide)

theorem ancestor_forkedGraph_iff {a b : Oid} : forkedGraph.Ancestor a b ↔
    a = b ∨ (a = commitA ∧ (b = commitB ∨ b = commitC)) := by
  constructor
  · intro h
    rcases h.eq_or_exists with heq | ⟨p, hp, hap⟩
    · exact .inl heq
    · obtain ⟨rfl, hb⟩ := mem_forkedParents.mp hp
      rcases hap.eq_or_exists with rfl | ⟨q, hq, -⟩
      · exact .inr ⟨rfl, hb⟩
      · exact absurd (mem_forkedParents (b := commitA).mp hq).2 (by decide)
  · rintro (rfl | h)
    · exact forkedGraph.ancestor_refl a
    · exact CommitGraph.ancestor_of_mem_parents (mem_forkedParents.mpr h)

instance (a b : Oid) : Decidable (forkedGraph.Ancestor a b) :=
  decidable_of_iff _ ancestor_forkedGraph_iff.symm

/-- The commits of the example, with what git reports about them. -/
def forked : Commits where
  graph := forkedGraph
  mergeBase a b :=
    if forkedGraph.Ancestor a b then some a
    else if forkedGraph.Ancestor b a then some b
    else if forkedGraph.Ancestor commitA a ∧ forkedGraph.Ancestor commitA b then some commitA
    else none
  isMergeBase a b := by
    split
    · next h =>
      exact ⟨forkedGraph.ancestor_refl a, h, fun c hc _ hp => hp.2 (antisymm_of _ hp.1 hc)⟩
    · split
      · next h =>
        exact ⟨h, forkedGraph.ancestor_refl b, fun c _ hc hp => hp.2 (antisymm_of _ hp.1 hc)⟩
      · next hab hba =>
        -- neither comes before the other, so a common ancestor is the commit below both
        have hcommon : ∀ c, forkedGraph.Ancestor c a → forkedGraph.Ancestor c b → c = commitA := by
          intro c hca hcb
          rcases ancestor_forkedGraph_iff.mp hca with rfl | ⟨hc, -⟩
          · exact absurd hcb hab
          · exact hc
        split
        · next h =>
          exact ⟨h.1, h.2, fun c hca hcb hp => hp.2 (hcommon c hca hcb).symm⟩
        · next h =>
          intro c hc
          obtain rfl := hcommon c hc.1 hc.2
          exact h hc

/-- Two machines, each with a shell, and clones that have just been made. -/
def pair : Net Bool Bool := ⟨⟨commitA, fun _ => commitA, fun _ => commitA⟩, fun _ => .idle⟩

theorem fresh_pair : pair.Fresh := fun _ => ⟨rfl, rfl⟩

instance (a b : Oid) : Decidable (forked.graph.Ancestor a b) :=
  inferInstanceAs (Decidable (forkedGraph.Ancestor a b))

instance (R : Refs Bool Oid) (c : Oid) : Decidable (R.New forked.graph c) :=
  inferInstanceAs (Decidable (¬ forked.graph.Ancestor c R.remote ∧
    ∀ i, ¬ (forked.graph.Ancestor c (R.head i) ∨ forked.graph.Ancestor c (R.tracking i))))

/-- Either of the two commits can be made where nobody has it. -/
theorem allowed_forked {N : Net Bool Bool} {i : Bool} {c : Oid} (hc : c = commitB ∨ c = commitC)
    (hhead : N.head i = commitA) (hnew : N.New forked.graph c) :
    Allowed forked id N (.commit i c) := by
  refine ⟨?_, fun a ha => .inl ?_, hnew⟩
  · rw [hhead]
    exact mem_forkedParents.mpr ⟨rfl, hc⟩
  · obtain ⟨rfl, -⟩ := mem_forkedParents.mp ha
    rw [hhead]
    exact forked.graph.ancestor_refl _

section Runs

variable [DecidableEq ι] [DecidableEq σ] {G : Commits} {home : σ → ι} {N : Net ι σ} {i j : ι}
  {p q : σ} {o : Outcome} {e : Event ι σ} {es done : List (Event ι σ)}

/-- **An event is a sequence of steps of one clone.** -/
theorem moves_of_step (h : Allowed G home N e) :
    Relation.ReflTransGen (Refs.Move G.graph) N.toRefs (step G home N e).toRefs := by
  cases e with
  | commit i c => exact .single (.extend N.toRefs i c h.1 h.2.1 h.2.2)
  | advance p o =>
    have hmerge : ∀ m, o = .merged m →
        G.graph.parents m = [N.head (home p), N.remote] ∧ N.New G.graph m := by
      rintro m rfl
      exact ⟨h.2.1, h.2.2.1⟩
    rw [step, act]
    split
    · exact moves_gitFetch o
    · exact moves_gitPull hmerge
    · exact moves_gitPush o
    · exact .refl

theorem run_cons (N : Net ι σ) (e : Event ι σ) (es : List (Event ι σ)) :
    run G home N (e :: es) = run G home (step G home N e) es := rfl

theorem run_append (N : Net ι σ) (es es' : List (Event ι σ)) :
    run G home N (es ++ es') = run G home (run G home N es) es' := List.foldl_append

theorem moves_of_run (h : Meets (step G home) (Allowed G home) N es) :
    Relation.ReflTransGen (Refs.Move G.graph) N.toRefs (run G home N es).toRefs := by
  induction es generalizing N with
  | nil => exact .refl
  | cons e es ih => exact (moves_of_step h.1).trans (ih h.2)

/-- **Nothing is lost.**  In every run from clones that have just been made, the remote
branch and the branch of each clone only move forward, and a commit that two clones have has
been published. -/
theorem nothing_lost (hfresh : N.Fresh) (h : Meets (step G home) (Allowed G home) N es)
    (hdone : done <+: es) :
    G.graph.Ancestor (run G home N done).remote (run G home N es).remote ∧
      (∀ i, G.graph.Ancestor ((run G home N done).head i) ((run G home N es).head i)) ∧
      (run G home N es).Sound G.graph := by
  obtain ⟨rest, rfl⟩ := hdone
  obtain ⟨-, hrest⟩ := meets_append.mp h
  have hmoves : Relation.ReflTransGen (Refs.Move G.graph) (run G home N done).toRefs
      (run G home (run G home N done) rest).toRefs := moves_of_run hrest
  rw [← run_append] at hmoves
  exact ⟨Refs.remote_le_of_moves hmoves, Refs.head_le_of_moves hmoves,
    hfresh.sound.moves (moves_of_run h)⟩

/-- A commit in one clone, and a check in the other. -/
theorem nothing_lost_pair :
    forkedGraph.Ancestor commitA
        (run forked id pair [.commit true commitB, .advance false .ok]).remote ∧
      (∀ i, forkedGraph.Ancestor ((run forked id pair [.commit true commitB]).head i)
        ((run forked id pair [.commit true commitB, .advance false .ok]).head i)) ∧
      (run forked id pair [.commit true commitB, .advance false .ok]).Sound forkedGraph := by
  have hrun : Meets (step forked id) (Allowed forked id) pair
      [.commit true commitB, .advance false .ok] :=
    ⟨allowed_forked (.inl rfl) rfl (by decide), trivial, trivial⟩
  exact nothing_lost fresh_pair hrun (List.prefix_append [Event.commit true commitB] _)

/-! ### Checks that are not disturbed on their own machine -/

/-- Commits are made in a clone while no shell there is checking, and one shell at a time
checks. -/
def Undisturbed (home : σ → ι) (N : Net ι σ) : Event ι σ → Prop
  | .commit i _ => ∀ q, home q = i → N.shell q = .idle
  | .advance p _ => N.shell p = .idle → ∀ q, home q = home p → N.shell q = .idle

/-- The variables of a shell are up to date, and it does what they ask for. -/
def Current (g : CommitGraph Oid) (N : Net ι σ) (i : ι) : Shell → Prop
  | .idle => True
  | .fetched => True
  | .hasLocal local_ => local_ = (N.head i).text
  | .hasRemote local_ remote => local_ = (N.head i).text ∧ remote = (N.tracking i).text
  | .pulling => g.Ancestor (N.head i) (N.tracking i)
  | .pushing => g.Ancestor (N.tracking i) (N.head i)

/-- One shell at a time checks in each clone, and what it has read is current. -/
structure Orderly (g : CommitGraph Oid) (home : σ → ι) (N : Net ι σ) : Prop where
  alone : ∀ p q, home p = home q → N.shell p ≠ .idle → N.shell q ≠ .idle → p = q
  current : ∀ p, Current g N (home p) (N.shell p)

omit [DecidableEq ι] [DecidableEq σ] in
theorem Orderly.of_idle (h : ∀ p, N.shell p = .idle) : Orderly G.graph home N :=
  ⟨fun p q _ hp _ => absurd (h p) hp, fun p => by rw [h p]; trivial⟩

omit [DecidableEq ι] [DecidableEq σ] in
/-- What a shell has read stays current while the refs of its clone stay. -/
theorem Current.congr {N' : Net ι σ} {sh : Shell} (h : Current G.graph N i sh)
    (hhead : N'.head i = N.head i) (htracking : N'.tracking i = N.tracking i) :
    Current G.graph N' i sh := by
  cases sh with
  | idle | fetched => trivial
  | hasLocal l =>
    rw [Current, hhead]
    exact h
  | hasRemote l r =>
    rw [Current, hhead, htracking]
    exact h
  | pulling | pushing =>
    rw [Current, hhead, htracking]
    exact h

/-- The clones other than that of an event are left alone. -/
theorem refs_step_advance_of_ne (h : i ≠ home p) :
    (step G home N (.advance p o)).head i = N.head i ∧
      (step G home N (.advance p o)).tracking i = N.tracking i := by
  dsimp only [step]
  rw [act]
  split
  · exact ⟨by rw [head_gitFetch], tracking_gitFetch_of_ne h o⟩
  · exact ⟨head_gitPull_of_ne h o, tracking_gitPull_of_ne h o⟩
  · exact ⟨by rw [head_gitPush], tracking_gitPush_of_ne h o⟩
  · exact ⟨rfl, rfl⟩

/-- What a shell has read after its next command is current, if what it read before was. -/
theorem current_next (h : Current G.graph N (home p) (N.shell p)) :
    Current G.graph (step G home N (.advance p o)) (home p) (next G home N p) := by
  cases hsh : N.shell p with
  | idle => simp only [next, hsh, Current]
  | fetched => simp only [step, act, next, hsh, Current]
  | hasLocal l =>
    rw [hsh] at h
    simp only [step, act, next, hsh, Current, and_true]
    exact h
  | hasRemote l r =>
    rw [hsh] at h
    obtain ⟨rfl, rfl⟩ := h
    simp only [step, act, next, hsh, compareTexts_eq]
    split
    · trivial
    · split
      · next hle => exact Commits.comesBefore_iff.mp hle
      · split
        · next hle => exact Commits.comesBefore_iff.mp hle
        · trivial
  | pulling => simp only [next, hsh, Current]
  | pushing => simp only [next, hsh, Current]

/-- An undisturbed event leaves what other shells have read current. -/
theorem current_of_ne (hord : Orderly G.graph home N) (hund : Undisturbed home N (.advance p o))
    (hqp : q ≠ p) : Current G.graph (step G home N (.advance p o)) (home q) (N.shell q) := by
  by_cases hhome : home q = home p
  · -- the shells of one clone: at most one of them is busy, and it is the one that runs
    have hidle : N.shell q = .idle := by
      by_contra hbusy
      by_cases hp : N.shell p = .idle
      · exact hbusy (hund hp q hhome)
      · exact hqp (hord.alone q p hhome hbusy hp)
    rw [hidle]
    trivial
  · obtain ⟨hhead, htracking⟩ := refs_step_advance_of_ne hhome
    exact (hord.current q).congr hhead htracking

/-- **Order is kept by every undisturbed event.** -/
theorem Orderly.step (hord : Orderly G.graph home N) (hund : Undisturbed home N e) :
    Orderly G.graph home (step G home N e) := by
  cases e with
  | commit i c =>
    refine ⟨hord.alone, fun q => ?_⟩
    by_cases hq : home q = i
    · change Current G.graph _ (home q) (N.shell q)
      rw [hund q hq]
      trivial
    · exact (hord.current q).congr (Refs.head_extend_of_ne hq) rfl
  | advance p o =>
    have hother : ∀ {q}, q ≠ p → (Sync.step G home N (.advance p o)).shell q = N.shell q :=
      fun hq => Function.update_of_ne hq ..
    have hself : (Sync.step G home N (.advance p o)).shell p = next G home N p :=
      Function.update_self ..
    have hbusy : ∀ {q}, home q = home p → (Sync.step G home N (.advance p o)).shell q ≠ .idle →
        q = p := by
      intro q hq hne
      by_contra hqp
      rw [hother hqp] at hne
      by_cases hp : N.shell p = .idle
      · exact hne (hund hp q hq)
      · exact hqp (hord.alone q p hq hne hp)
    refine ⟨fun q q' hhome hq hq' => ?_, fun q => ?_⟩
    · by_cases hqp : home q = home p
      · rw [hbusy hqp hq, hbusy (hhome ▸ hqp) hq']
      · have hne : ∀ {k}, home k = home q → k ≠ p := by
          rintro k hk rfl
          exact hqp hk.symm
        rw [hother (hne rfl)] at hq
        rw [hother (hne hhome.symm)] at hq'
        exact hord.alone q q' hhome hq hq'
    · by_cases hq : q = p
      · subst hq
        rw [hself]
        exact current_next (hord.current q)
      · rw [hother hq]
        exact current_of_ne hord hund hq

/-- **Where no check is disturbed on its own machine, every pull moves forward.**  Whatever
happens on other machines, a shell that has come to `git pull` is in a clone that the remote
branch is ahead of, one that has come to `git push` is in a clone that is ahead of what it has
seen there, and no merge commit is ever made. -/
theorem pull_fastForwards (hfresh : N.Fresh) (hidle : ∀ p, N.shell p = .idle)
    (h : Meets (Sync.step G home) (fun N e => Allowed G home N e ∧ Undisturbed home N e) N es) :
    (∀ done, done <+: es → ∀ p,
      ((run G home N done).shell p = .pulling →
        G.graph.Ancestor ((run G home N done).head (home p)) (run G home N done).remote) ∧
      ((run G home N done).shell p = .pushing →
        G.graph.Ancestor ((run G home N done).tracking (home p))
          ((run G home N done).head (home p)))) ∧
    ∀ p m, .advance p (.merged m) ∉ es := by
  have hstep : ∀ N : Net ι σ, ∀ e ∈ es, N.Sound G.graph ∧ Orderly G.graph home N →
      Allowed G home N e ∧ Undisturbed home N e →
      (Sync.step G home N e).Sound G.graph ∧ Orderly G.graph home (Sync.step G home N e) :=
    fun N e _ hN hcond => ⟨hN.1.moves (moves_of_step hcond.1), hN.2.step hcond.2⟩
  have hinv : ∀ done, done <+: es →
      (run G home N done).Sound G.graph ∧ Orderly G.graph home (run G home N done) :=
    invariant_of_meets hstep ⟨hfresh.sound, .of_idle hidle⟩ h
  have hpull : ∀ done, done <+: es → ∀ p, (run G home N done).shell p = .pulling →
      G.graph.Ancestor ((run G home N done).head (home p)) (run G home N done).remote := by
    intro done hdone p hp
    obtain ⟨hsound, hord⟩ := hinv done hdone
    have hcurrent := hord.current p
    rw [hp] at hcurrent
    exact hcurrent.trans (hsound.tracking_le (home p))
  refine ⟨fun done hdone p => ⟨hpull done hdone p, fun hp => ?_⟩, fun p m hmem => ?_⟩
  · have hcurrent := (hinv done hdone).2.current p
    rw [hp] at hcurrent
    exact hcurrent
  · obtain ⟨pre, suf, rfl⟩ := List.append_of_mem hmem
    have hpre : pre ++ [.advance p (.merged m)] <+: pre ++ .advance p (.merged m) :: suf :=
      ⟨suf, by rw [List.append_assoc, List.singleton_append]⟩
    obtain ⟨hpulling, -, -, hno, -⟩ := (cond_of_meets h hpre).1
    exact hno (hpull pre (List.prefix_append pre _) p hpulling)

/-- A commit in one clone while a check runs in the other. -/
theorem pull_fastForwards_pair :
    .advance true (.merged commitC) ∉
      [Event.advance false .ok, .commit true commitB, .advance false .ok] := by
  have hrun : Meets (step forked id) (fun N e => Allowed forked id N e ∧ Undisturbed id N e) pair
      [.advance false .ok, .commit true commitB, .advance false .ok] :=
    ⟨⟨trivial, fun _ _ _ => rfl⟩,
      ⟨allowed_forked (.inl rfl) rfl (by decide), fun q hq => by cases hq; rfl⟩,
      ⟨trivial, fun hidle => by cases hidle⟩, trivial⟩
  exact (pull_fastForwards fresh_pair (fun _ => rfl) hrun).2 true commitC

/-! ### Clones that have diverged -/

/-- The remote branch changes only where the commit of a clone is a step forward for it. -/
theorem remote_step (G : Commits) (home : σ → ι) (N : Net ι σ) (p : σ) (o : Outcome) :
    (step G home N (.advance p o)).remote = N.remote ∨
      (G.graph.Ancestor N.remote (N.head (home p)) ∧
        (step G home N (.advance p o)).toRefs = N.publish (home p)) := by
  dsimp only [step]
  rw [act]
  split
  · cases o <;> exact .inl rfl
  · refine .inl ?_
    cases o with
    | ok =>
      rw [gitPull]
      split <;> rfl
    | unreachable | refused | merged => rfl
  · cases o with
    | ok =>
      rw [gitPush]
      split
      · next h => exact .inr ⟨Commits.comesBefore_iff.mp h, rfl⟩
      · exact .inl rfl
    | unreachable | refused | merged => exact .inl rfl
  · exact .inl rfl

/-- The shell has not come to a pull, and `LOCAL` is `h` where it is set. -/
def Stalled (h : Oid) : Shell → Prop
  | .pulling => False
  | .hasLocal local_ => local_ = h.text
  | .hasRemote local_ _ => local_ = h.text
  | _ => True

/-- Clone `i` is at `h`, which neither comes before the remote branch nor after it, and no
shell in the clone is about to pull. -/
structure Diverged (g : CommitGraph Oid) (home : σ → ι) (i : ι) (h : Oid) (N : Net ι σ) :
    Prop where
  head_eq : N.head i = h
  not_behind : ¬ g.Ancestor h N.remote
  not_ahead : ¬ g.Ancestor N.remote h
  stalled : ∀ p, home p = i → Stalled h (N.shell p)

variable {h : Oid}

omit [DecidableEq ι] [DecidableEq σ] in
/-- What the shells of a diverged clone come to. -/
theorem stalled_next (hsound : N.Sound G.graph) (hdiv : Diverged G.graph home i h N)
    (hp : home p = i) : Stalled h (next G home N p) := by
  have hstalled := hdiv.stalled p hp
  have hhead : N.head (home p) = h := by rw [hp, hdiv.head_eq]
  cases hsh : N.shell p with
  | idle => simp only [next, hsh, Stalled]
  | fetched => simp only [next, hsh, Stalled, hhead]
  | hasLocal l =>
    rw [hsh] at hstalled
    simp only [next, hsh]
    exact hstalled
  | hasRemote l r =>
    rw [hsh] at hstalled
    obtain rfl : l = h.text := hstalled
    have hno : ¬ G.graph.Ancestor h (N.tracking (home p)) :=
      fun hle => hdiv.not_behind (hle.trans (hsound.tracking_le _))
    simp only [next, hsh, hhead]
    have hpull := compareTexts_ne_pulling hno r
    rw [compareTexts] at hpull ⊢
    grind [Stalled]
  | pulling | pushing => simp only [next, hsh, Stalled]

/-- A shell of a diverged clone does nothing to the branches but fetch. -/
theorem head_step_of_diverged (hdiv : Diverged G.graph home i h N) :
    (step G home N (.advance p o)).head i = h := by
  by_cases hp : i = home p
  · have hstalled := hdiv.stalled p hp.symm
    dsimp only [step]
    rw [act]
    split
    · rw [head_gitFetch, hdiv.head_eq]
    · next hsh =>
      rw [hsh] at hstalled
      exact hstalled.elim
    · rw [head_gitPush, hdiv.head_eq]
    · exact hdiv.head_eq
  · rw [(refs_step_advance_of_ne hp).1, hdiv.head_eq]

/-- **An event elsewhere leaves a diverged clone diverged**, and so does a check in it. -/
theorem Diverged.step (hsound : N.Sound G.graph) (hdiv : Diverged G.graph home i h N)
    (hallowed : Allowed G home N e) (hcommit : ∀ c, e ≠ .commit i c) :
    Diverged G.graph home i h (step G home N e) := by
  have hmoves := moves_of_step hallowed
  have hahead : ¬ G.graph.Ancestor (Sync.step G home N e).remote h :=
    fun hle => hdiv.not_ahead ((Refs.remote_le_of_moves hmoves).trans hle)
  cases e with
  | commit j c =>
    have hj : i ≠ j := by
      rintro rfl
      exact hcommit c rfl
    exact ⟨(Refs.head_extend_of_ne hj).trans hdiv.head_eq, hdiv.not_behind, hahead, hdiv.stalled⟩
  | advance p o =>
    refine ⟨head_step_of_diverged hdiv, ?_, hahead, fun q hq => ?_⟩
    · rcases remote_step G home N p o with hsame | ⟨hle, hpublish⟩
      · rw [hsame]
        exact hdiv.not_behind
      · have hpi : home p ≠ i := by
          rintro rfl
          exact hdiv.not_ahead (hdiv.head_eq ▸ hle)
        rw [hpublish]
        refine hsound.not_ancestor_publish hpi ?_ hdiv.not_behind
        rw [Refs.Known, hdiv.head_eq]
        exact .inl (G.graph.ancestor_refl h)
    · by_cases hqp : q = p
      · subst hqp
        have hself : (Sync.step G home N (.advance q o)).shell q = next G home N q :=
          Function.update_self ..
        rw [hself]
        exact stalled_next hsound hdiv hq
      · have hother : (Sync.step G home N (.advance p o)).shell q = N.shell q :=
          Function.update_of_ne hqp ..
        rw [hother]
        exact hdiv.stalled q hq

/-- **A clone that has diverged stays so**: while nobody commits in it, no run of checks and
of commits in other clones changes its branch, publishes its commit, or makes the remote
branch come before it. -/
theorem stays_diverged {es₀ : List (Event ι σ)} (hfresh : N.Fresh)
    (hreach : Meets (Sync.step G home) (Allowed G home) N es₀)
    (hidle : ∀ p, home p = i → (run G home N es₀).shell p = .idle)
    (hbehind : ¬ G.graph.Ancestor ((run G home N es₀).head i) (run G home N es₀).remote)
    (hahead : ¬ G.graph.Ancestor (run G home N es₀).remote ((run G home N es₀).head i))
    (h : Meets (Sync.step G home) (fun N e => Allowed G home N e ∧ ∀ c, e ≠ .commit i c)
      (run G home N es₀) es) :
    (run G home N (es₀ ++ es)).head i = (run G home N es₀).head i ∧
      ¬ G.graph.Ancestor ((run G home N es₀).head i) (run G home N (es₀ ++ es)).remote ∧
      ¬ G.graph.Ancestor (run G home N (es₀ ++ es)).remote ((run G home N es₀).head i) := by
  have hsound := hfresh.sound.moves (moves_of_run hreach)
  rw [run_append]
  generalize run G home N es₀ = N₁ at *
  have hstart : Diverged G.graph home i (N₁.head i) N₁ :=
    ⟨rfl, hbehind, hahead, fun p hp => by rw [hidle p hp]; trivial⟩
  have hstep : ∀ N : Net ι σ, ∀ e ∈ es, N.Sound G.graph ∧ Diverged G.graph home i (N₁.head i) N →
      (Allowed G home N e ∧ ∀ c, e ≠ .commit i c) →
      (Sync.step G home N e).Sound G.graph ∧
        Diverged G.graph home i (N₁.head i) (Sync.step G home N e) :=
    fun N e _ hN hcond => ⟨hN.1.moves (moves_of_step hcond.1), hN.2.step hN.1 hcond.1 hcond.2⟩
  obtain ⟨-, hend⟩ := invariant_of_meets hstep ⟨hsound, hstart⟩ h es List.prefix_rfl
  exact ⟨hend.head_eq, hend.not_behind, hend.not_ahead⟩

/-- Both clones have a commit of their own, and one of them has published it. -/
def forkedRun : List (Event Bool Bool) :=
  .commit true commitB :: .commit false commitC :: List.replicate 5 (.advance true .ok)

/-- Checks in the other clone change nothing. -/
theorem stays_diverged_forkedRun :
    (run forked id pair (forkedRun ++ List.replicate 4 (.advance false .ok))).head false =
      (run forked id pair forkedRun).head false := by
  have hreach : Meets (Sync.step forked id) (Allowed forked id) pair forkedRun :=
    ⟨allowed_forked (.inl rfl) rfl (by decide), allowed_forked (.inr rfl) rfl (by decide),
      trivial, trivial, trivial, trivial, trivial, trivial⟩
  have hrun : Meets (Sync.step forked id)
      (fun N e => Allowed forked id N e ∧ ∀ c, e ≠ .commit false c)
      (run forked id pair forkedRun) (List.replicate 4 (.advance false .ok)) :=
    ⟨⟨trivial, nofun⟩, ⟨trivial, nofun⟩, ⟨trivial, nofun⟩, ⟨trivial, nofun⟩, trivial⟩
  exact (stays_diverged fresh_pair hreach (by decide +kernel) (by decide +kernel)
    (by decide +kernel) hrun).1

/-! ### Checks that nothing disturbs -/

/-- The commits of the branches, as copies of one value. -/
def Net.replicas (N : Net ι σ) : Replicas ι Oid := ⟨N.remote, N.head⟩

/-- The variables are read, and compared. -/
theorem run_read (hidle : N.shell p = .idle) :
    run G home N (List.replicate 4 (.advance p .ok)) =
      ⟨N.fetch (home p), Function.update N.shell p
        (if N.head (home p) = N.remote then .idle
          else if G.comesBefore (N.head (home p)) N.remote then .pulling
          else if G.comesBefore N.remote (N.head (home p)) then .pushing else .idle)⟩ := by
  simp only [run, List.replicate_succ, List.replicate_zero, List.foldl_cons, List.foldl_nil, step,
    act, next, hidle, gitFetch, Function.update_self, Function.update_idem, Refs.tracking_fetch,
    Refs.head_fetch, compareTexts_eq]

omit [DecidableEq ι] in
theorem update_idle (hidle : ∀ q, N.shell q = .idle) (p q : σ) :
    Function.update N.shell p .idle q = .idle := by
  by_cases hq : q = p
  · rw [hq, Function.update_self]
  · rw [Function.update_of_ne hq, hidle q]

variable (G home) in
/-- **An undisturbed check is a meeting of the clone with the remote branch.** -/
theorem check_spec (hidle : ∀ q, N.shell q = .idle) (p : σ) :
    (∀ q, (N.check G home p).shell q = .idle) ∧
      (N.check G home p).replicas = N.replicas.sync G.graph.Ancestor (home p) := by
  dsimp only [Net.check]
  rw [run_read (hidle p), Replicas.sync]
  simp only [Function.update_self]
  by_cases heq : N.head (home p) = N.remote
  · -- the two are equal, and nothing happens
    simp only [if_pos heq, if_true]
    refine ⟨update_idle hidle p, ?_⟩
    have hle : G.graph.Ancestor (N.replicas.copy (home p)) N.replicas.main := by
      dsimp only [Net.replicas]
      rw [heq]
      exact G.graph.ancestor_refl _
    have hsame : Function.update N.head (home p) N.remote = N.head := by
      rw [← heq, Function.update_eq_self]
    rw [if_pos hle]
    dsimp only [Net.replicas, Refs.fetch]
    rw [hsame]
  · simp only [if_neg heq]
    by_cases hbehind : G.comesBefore (N.head (home p)) N.remote = true
    · simp only [if_pos hbehind, reduceCtorEq, if_false, step, act, next, Function.update_self,
        Function.update_idem, gitPull, Refs.head_fetch, Refs.remote_fetch]
      refine ⟨update_idle hidle p, ?_⟩
      have hle : G.graph.Ancestor (N.replicas.copy (home p)) N.replicas.main :=
        Commits.comesBefore_iff.mp hbehind
      rw [if_pos hle]
      simp only [hbehind, if_true]
      rfl
    · have hno : ¬ G.graph.Ancestor (N.replicas.copy (home p)) N.replicas.main :=
        fun hle => hbehind (Commits.comesBefore_iff.mpr hle)
      simp only [if_neg hbehind, if_neg hno]
      by_cases hahead : G.comesBefore N.remote (N.head (home p)) = true
      · simp only [if_pos hahead, reduceCtorEq, if_false, step, act, next, Function.update_self,
          Function.update_idem, gitPush, Refs.head_fetch, Refs.remote_fetch]
        refine ⟨update_idle hidle p, ?_⟩
        have hle : G.graph.Ancestor N.replicas.main (N.replicas.copy (home p)) :=
          Commits.comesBefore_iff.mp hahead
        rw [if_pos hle]
        simp only [hahead, if_true]
        rfl
      · have hno' : ¬ G.graph.Ancestor N.replicas.main (N.replicas.copy (home p)) :=
          fun hle => hahead (Commits.comesBefore_iff.mpr hle)
        simp only [if_neg hahead, if_true, if_neg hno']
        exact ⟨update_idle hidle p, rfl⟩

theorem checks_spec (hidle : ∀ q, N.shell q = .idle) (l : List σ) :
    (∀ q, (N.checks G home l).shell q = .idle) ∧
      (N.checks G home l).replicas = N.replicas.syncs G.graph.Ancestor (l.map home) := by
  induction l generalizing N with
  | nil => exact ⟨hidle, rfl⟩
  | cons p l ih =>
    obtain ⟨hidle', hrep⟩ := check_spec G home hidle p
    rw [Net.checks, List.foldl_cons, List.map_cons, Replicas.syncs_cons, ← hrep]
    exact ih hidle'

/-- **When checking makes all clones agree**: after two rounds of checks, in any order, every
clone is at the commit of the remote branch exactly when one of the branches, the remote one
or that of a clone, was ahead of all the others. -/
theorem checks_agree_iff (hidle : ∀ q, N.shell q = .idle) {l l' : List σ}
    (hl : ∀ i, ∃ p ∈ l, home p = i) (hl' : ∀ i, ∃ p ∈ l', home p = i) :
    (∀ i, (N.checks G home (l ++ l')).head i = (N.checks G home (l ++ l')).remote) ↔
      ∃ c, (c = N.remote ∨ ∃ i, c = N.head i) ∧ G.graph.Ancestor N.remote c ∧
        ∀ i, G.graph.Ancestor (N.head i) c := by
  have hall : ∀ i, i ∈ l.map home := fun i => List.mem_map.mpr (hl i)
  have hall' : ∀ i, i ∈ l'.map home := fun i => List.mem_map.mpr (hl' i)
  have hagree := Replicas.agree_iff (r := G.graph.Ancestor) (R := N.replicas) hall hall'
  rw [← List.map_append, ← (checks_spec hidle (l ++ l')).2] at hagree
  refine hagree.trans ⟨?_, ?_⟩
  · rintro ⟨c, hholds, hmain, hcopy⟩
    exact ⟨c, hholds.imp Eq.symm fun ⟨i, hi⟩ => ⟨i, hi.symm⟩, hmain, hcopy⟩
  · rintro ⟨c, hholds, hmain, hcopy⟩
    exact ⟨c, hholds.imp Eq.symm fun ⟨i, hi⟩ => ⟨i, hi.symm⟩, hmain, hcopy⟩

/-- Where one clone has a commit of its own, two rounds of checks are enough. -/
theorem checks_agree_pair :
    ((step forked id pair (.commit true commitB)).checks forked id
        ([false, true] ++ [false, true])).head false =
      ((step forked id pair (.commit true commitB)).checks forked id
        ([false, true] ++ [false, true])).remote := by
  have hall : ∀ i : Bool, ∃ p ∈ [false, true], id p = i := by decide
  exact (checks_agree_iff (fun _ => rfl) hall hall).mpr
    ⟨commitB, .inr ⟨true, rfl⟩, by decide, by decide⟩ false

/-! ### Work in sessions -/

/-- A session in a shell: a check, commits in its clone, and another check. -/
def Net.session (G : Commits) (home : σ → ι) (N : Net ι σ) (s : σ × List Oid) : Net ι σ :=
  (run G home (N.check G home s.1) (s.2.map (.commit (home s.1)))).check G home s.1

/-- The commits of a session can be made after its first check. -/
def Feasible (G : Commits) (home : σ → ι) (N : Net ι σ) (s : σ × List Oid) : Prop :=
  Meets (step G home) (Allowed G home) (N.check G home s.1) (s.2.map (.commit (home s.1)))

/-- No shell is checking, and no clone is ahead of the remote branch. -/
structure Settled (g : CommitGraph Oid) (N : Net ι σ) : Prop where
  idle : ∀ p, N.shell p = .idle
  head_le : ∀ i, g.Ancestor (N.head i) N.remote

variable (G home) in
/-- Commits in one clone change nothing but its branch. -/
theorem run_commits (N : Net ι σ) (i : ι) (cs : List Oid) :
    (run G home N (cs.map (.commit i))).shell = N.shell ∧
      (run G home N (cs.map (.commit i))).remote = N.remote ∧
      ∀ j, j ≠ i → (run G home N (cs.map (.commit i))).head j = N.head j := by
  induction cs generalizing N with
  | nil => exact ⟨rfl, rfl, fun _ _ => rfl⟩
  | cons c cs ih =>
    obtain ⟨hshell, hremote, hhead⟩ := ih (step G home N (.commit i c))
    refine ⟨hshell, hremote, fun j hj => (hhead j hj).trans (Refs.head_extend_of_ne hj)⟩

/-- The clone is then at the last of them, and has them all. -/
theorem ancestor_run_commits {cs : List Oid}
    (h : Meets (step G home) (Allowed G home) N (cs.map (.commit i))) :
    G.graph.Ancestor (N.head i) ((run G home N (cs.map (.commit i))).head i) ∧
      ∀ c ∈ cs, G.graph.Ancestor c ((run G home N (cs.map (.commit i))).head i) := by
  refine ⟨Refs.head_le_of_moves (moves_of_run h) i, ?_⟩
  induction cs generalizing N with
  | nil => simp
  | cons c cs ih =>
    intro d hd
    rw [List.map_cons, run_cons]
    rcases List.mem_cons.mp hd with rfl | hd
    · have hle := Refs.head_le_of_moves (moves_of_run h.2) i
      have hhead : (step G home N (.commit i d)).head i = d := Refs.head_extend
      rwa [hhead] at hle
    · exact ih h.2 d hd

/-- **A session publishes its commits**, and leaves no clone ahead. -/
theorem Settled.session (hset : Settled G.graph N) {s : σ × List Oid}
    (hfeas : Feasible G home N s) :
    Settled G.graph (N.session G home s) ∧
      G.graph.Ancestor N.remote (N.session G home s).remote ∧
      ∀ c ∈ s.2, G.graph.Ancestor c (N.session G home s).remote := by
  obtain ⟨p, cs⟩ := s
  -- the first check brings the clone up to the remote branch
  obtain ⟨hidle, hrep⟩ := check_spec G home hset.idle p
  obtain ⟨hmain, hcopy⟩ := Replicas.sync_of_le_main (R := N.replicas) (hset.head_le (home p))
  rw [← hrep] at hmain hcopy
  have hother : ∀ j, j ≠ home p → (N.check G home p).head j = N.head j := by
    intro j hj
    have hcopyj := Replicas.copy_sync_of_ne (r := G.graph.Ancestor) (R := N.replicas) hj
    rwa [← hrep] at hcopyj
  rw [Net.session]
  dsimp only [Feasible] at hfeas ⊢
  generalize N.check G home p = N₁ at *
  obtain ⟨hshell, hremote, hhead⟩ := run_commits G home N₁ (home p) cs
  obtain ⟨hup, hhas⟩ := ancestor_run_commits hfeas
  generalize run G home N₁ (cs.map (.commit (home p))) = N₂ at *
  -- the second one publishes what has been made since
  have hidle₂ : ∀ q, N₂.shell q = .idle := fun q => by rw [hshell, hidle q]
  have hahead : G.graph.Ancestor N₂.replicas.main (N₂.replicas.copy (home p)) := by
    change G.graph.Ancestor N₂.remote (N₂.head (home p))
    have heq : N₁.head (home p) = N₂.remote := hcopy.trans (hmain.symm.trans hremote.symm)
    rwa [← heq]
  obtain ⟨hidle', hrep'⟩ := check_spec G home hidle₂ p
  obtain ⟨hmain', hcopy'⟩ := Replicas.sync_of_main_le hahead
  rw [← hrep'] at hmain' hcopy'
  have hremote' : (N₂.check G home p).remote = N₂.head (home p) := hmain'
  have hle : G.graph.Ancestor N.remote (N₂.check G home p).remote := by
    have heq : N.remote = N₁.head (home p) := hcopy.symm
    rw [hremote', heq]
    exact hup
  refine ⟨⟨hidle', fun j => ?_⟩, hle, fun c hc => ?_⟩
  · by_cases hj : j = home p
    · subst hj
      have heq : (N₂.check G home p).head (home p) = N₂.head (home p) := hcopy'
      rw [heq, hremote']
      exact G.graph.ancestor_refl _
    · have hcopyj := Replicas.copy_sync_of_ne (r := G.graph.Ancestor) (R := N₂.replicas) hj
      rw [← hrep'] at hcopyj
      have heq : (N₂.check G home p).head j = N.head j :=
        hcopyj.trans ((hhead j hj).trans (hother j hj))
      rw [heq]
      exact (hset.head_le j).trans hle
  · rw [hremote']
    exact hhas c hc

/-- **Work in sessions ends up published.**  Where each piece of work starts and ends with a
check and sessions do not overlap, after every session no clone is ahead of the remote
branch or has diverged from it, and every commit made so far has been published. -/
theorem sessions_publish (hidle : ∀ p, N.shell p = .idle)
    (hle : ∀ i, G.graph.Ancestor (N.head i) N.remote) {ss done : List (σ × List Oid)}
    (h : Meets (Net.session G home) (Feasible G home) N ss) (hdone : done <+: ss) :
    (∀ i, G.graph.Ancestor ((done.foldl (Net.session G home) N).head i)
      (done.foldl (Net.session G home) N).remote) ∧
    ∀ s ∈ done, ∀ c ∈ s.2, G.graph.Ancestor c (done.foldl (Net.session G home) N).remote := by
  obtain ⟨rest, rfl⟩ := hdone
  have hset : Settled G.graph N := ⟨hidle, hle⟩
  replace h := (meets_append.mp h).1
  clear hidle hle
  -- what is published stays so through the sessions that follow
  suffices hrun : Settled G.graph (done.foldl (Net.session G home) N) ∧
      G.graph.Ancestor N.remote (done.foldl (Net.session G home) N).remote ∧
      ∀ s ∈ done, ∀ c ∈ s.2, G.graph.Ancestor c (done.foldl (Net.session G home) N).remote from
    ⟨hrun.1.head_le, hrun.2.2⟩
  induction done generalizing N with
  | nil => exact ⟨hset, G.graph.ancestor_refl _, by simp⟩
  | cons s done ih =>
    obtain ⟨hset', hup, hhas⟩ := hset.session h.1
    obtain ⟨hend, hup', hhas'⟩ := ih hset' h.2
    refine ⟨hend, hup.trans hup', fun t ht c hc => ?_⟩
    rcases List.mem_cons.mp ht with rfl | ht
    · exact (hhas c hc).trans hup'
    · exact hhas' t ht c hc

/-- A session in which one commit is made. -/
theorem sessions_publish_pair :
    forkedGraph.Ancestor commitB
      ([(true, [commitB])].foldl (Net.session forked id) pair).remote := by
  have hrun : Meets (Net.session forked id) (Feasible forked id) pair [(true, [commitB])] :=
    ⟨⟨allowed_forked (.inl rfl) (by decide +kernel) (by decide +kernel), trivial⟩, trivial⟩
  exact (sessions_publish (fun _ => rfl) (fun _ => forkedGraph.ancestor_refl _) hrun
    List.prefix_rfl).2 _ List.mem_cons_self _ List.mem_cons_self

end Runs

end Sync
end Manager
end Dfuser
