import Mathlib.Logic.Function.Basic
import Mathlib.Order.Defs.Unbundled
import Dfuser.Lib.CommitGraph

/-!
# A branch and its clones

A branch of a remote repository and the clones of it, each with a commit of its own and
the commit where it last saw the remote branch.  A clone may look at the remote branch,
follow what it has seen, make commits, and publish its own commit where that is a step
forward for the branch.  Any order of these is a run.

## Main definitions

* `Refs`, `Refs.Move` — the commits that the branches name, and one step of any clone.
* `Refs.Known`, `Refs.New` — the commits a clone has, and those nobody has.
* `Refs.Sound` — what two clones both have has been published.

## Main results

* `Refs.Move.remote_le`, `Refs.Move.head_le` — branches only move forward.
* `Refs.Sound.move` — **soundness is kept by every step.**
* `Refs.Sound.not_ancestor_publish` — an unpublished commit is published by its own clone
  only.
-/

namespace Dfuser

variable {α ι : Type*}

namespace CommitGraph

variable {g : CommitGraph α} {a b c : α}

instance (g : CommitGraph α) : IsPartialOrder α g.Ancestor where
  refl := g.ancestor_refl
  trans _ _ _ := Relation.ReflTransGen.trans
  antisymm a b hab hba := by
    rcases Relation.reflTransGen_iff_eq_or_transGen.mp hab with rfl | hab
    · rfl
    · exact absurd (hab.trans_left hba) (g.acyclic a)

theorem Ancestor.trans (hab : g.Ancestor a b) (hbc : g.Ancestor b c) : g.Ancestor a c :=
  Relation.ReflTransGen.trans hab hbc

/-- A commit comes before those made on top of it. -/
theorem ancestor_of_mem_parents (h : a ∈ g.parents b) : g.Ancestor a b :=
  Relation.ReflTransGen.single h

/-- What comes before a commit comes before a parent of it. -/
theorem Ancestor.eq_or_exists (h : g.Ancestor a b) : a = b ∨ ∃ p ∈ g.parents b, g.Ancestor a p := by
  rcases Relation.ReflTransGen.cases_tail h with hab | ⟨p, hap, hp⟩
  · exact .inl hab.symm
  · exact .inr ⟨p, hp, hap⟩

end CommitGraph

/-- A remote branch, and for each clone its own branch and where it last saw the remote
one. -/
structure Refs (ι α : Type*) where
  remote : α
  head : ι → α
  tracking : ι → α

namespace Refs

variable (g : CommitGraph α)

/-- The commits clone `i` has. -/
def Known (R : Refs ι α) (i : ι) (c : α) : Prop :=
  g.Ancestor c (R.head i) ∨ g.Ancestor c (R.tracking i)

/-- Nobody has the commit. -/
def New (R : Refs ι α) (c : α) : Prop := ¬ g.Ancestor c R.remote ∧ ∀ i, ¬ R.Known g i c

/-- What two clones both have has been published, and clones have seen nothing else on the
remote branch. -/
structure Sound (R : Refs ι α) : Prop where
  tracking_le : ∀ i, g.Ancestor (R.tracking i) R.remote
  shared : ∀ i j, i ≠ j → ∀ c, R.Known g i c → R.Known g j c → g.Ancestor c R.remote

/-- Clones that have just been made. -/
def Fresh (R : Refs ι α) : Prop := ∀ i, R.head i = R.remote ∧ R.tracking i = R.remote

variable [DecidableEq ι]

/-- Clone `i` looks at the remote branch. -/
def fetch (R : Refs ι α) (i : ι) : Refs ι α :=
  { R with tracking := Function.update R.tracking i R.remote }

/-- Clone `i` makes commit `c`. -/
def extend (R : Refs ι α) (i : ι) (c : α) : Refs ι α :=
  { R with head := Function.update R.head i c }

/-- Clone `i` publishes its commit. -/
def publish (R : Refs ι α) (i : ι) : Refs ι α :=
  { R with remote := R.head i, tracking := Function.update R.tracking i (R.head i) }

/-- One step of a clone. -/
inductive Move : Refs ι α → Refs ι α → Prop
  | fetch (R : Refs ι α) (i : ι) : Move R (R.fetch i)
  /-- A new commit, on top of commits the clone has, the one it is at among them. -/
  | extend (R : Refs ι α) (i : ι) (c : α) (htop : R.head i ∈ g.parents c)
      (hknown : ∀ p ∈ g.parents c, R.Known g i p) (hnew : R.New g c) : Move R (R.extend i c)
  /-- The clone moves forward to what it has seen. -/
  | forward (R : Refs ι α) (i : ι) (h : g.Ancestor (R.head i) (R.tracking i)) :
      Move R (R.extend i (R.tracking i))
  /-- The remote branch moves forward to the commit of the clone. -/
  | publish (R : Refs ι α) (i : ι) (h : g.Ancestor R.remote (R.head i)) : Move R (R.publish i)

variable {g} {R R' : Refs ι α} {i j : ι} {c d : α}

omit [DecidableEq ι] in
theorem Fresh.sound (h : R.Fresh) : R.Sound g := by
  refine ⟨fun i => ?_, fun i j _ c hi _ => ?_⟩
  · rw [(h i).2]
    exact g.ancestor_refl _
  · rwa [Known, (h i).1, (h i).2, or_self] at hi

omit [DecidableEq ι] in
theorem Known.trans (h : R.Known g i d) (hc : g.Ancestor c d) : R.Known g i c :=
  h.imp hc.trans hc.trans

/-! ### The steps, one clone at a time -/

@[simp] theorem remote_fetch : (R.fetch i).remote = R.remote := rfl

@[simp] theorem head_fetch : (R.fetch i).head = R.head := rfl

@[simp] theorem tracking_fetch : (R.fetch i).tracking i = R.remote := Function.update_self ..

theorem tracking_fetch_of_ne (h : j ≠ i) : (R.fetch i).tracking j = R.tracking j :=
  Function.update_of_ne h ..

@[simp] theorem remote_extend : (R.extend i c).remote = R.remote := rfl

@[simp] theorem head_extend : (R.extend i c).head i = c := Function.update_self ..

theorem head_extend_of_ne (h : j ≠ i) : (R.extend i c).head j = R.head j :=
  Function.update_of_ne h ..

@[simp] theorem tracking_extend : (R.extend i c).tracking = R.tracking := rfl

@[simp] theorem remote_publish : (R.publish i).remote = R.head i := rfl

@[simp] theorem head_publish : (R.publish i).head = R.head := rfl

@[simp] theorem tracking_publish : (R.publish i).tracking i = R.head i := Function.update_self ..

theorem tracking_publish_of_ne (h : j ≠ i) : (R.publish i).tracking j = R.tracking j :=
  Function.update_of_ne h ..

/-! ### Branches move forward -/

theorem Move.remote_le (h : Move g R R') : g.Ancestor R.remote R'.remote := by
  cases h with
  | fetch | extend | forward => exact g.ancestor_refl _
  | publish i h => exact h

theorem Move.head_le (h : Move g R R') (j : ι) : g.Ancestor (R.head j) (R'.head j) := by
  have hextend : ∀ {i c}, g.Ancestor (R.head i) c →
      g.Ancestor (R.head j) ((R.extend i c).head j) := by
    intro i c hle
    by_cases hj : j = i
    · subst hj
      rwa [head_extend]
    · rw [head_extend_of_ne hj]
      exact g.ancestor_refl _
  cases h with
  | fetch | publish => exact g.ancestor_refl _
  | extend i c htop => exact hextend (CommitGraph.ancestor_of_mem_parents htop)
  | forward i h => exact hextend h

/-! ### What clones share -/

/-- What a clone has after a step, it had before, or it is published, or no other clone
has it. -/
theorem known_of_move (h : Move g R R') (hc : R'.Known g j c) :
    R.Known g j c ∨ g.Ancestor c R'.remote ∨ ∀ k, k ≠ j → ¬ R'.Known g k c := by
  cases h with
  | fetch i =>
    by_cases hj : j = i
    · subst hj
      rw [Known, tracking_fetch] at hc
      rcases hc with hc | hc
      · exact .inl (.inl hc)
      · exact .inr (.inl hc)
    · rw [Known, tracking_fetch_of_ne hj] at hc
      exact .inl hc
  | extend i d htop hknown hnew =>
    by_cases hj : j = i
    · subst hj
      rw [Known, head_extend] at hc
      rcases hc with hc | hc
      · rcases hc.eq_or_exists with rfl | ⟨p, hp, hcp⟩
        · -- the commit made: no clone had it, and the others still do not
          refine .inr (.inr fun k hk => ?_)
          rw [Known, head_extend_of_ne hk]
          exact hnew.2 k
        · exact .inl ((hknown p hp).trans hcp)
      · exact .inl (.inr hc)
    · rw [Known, head_extend_of_ne hj] at hc
      exact .inl hc
  | forward i h =>
    by_cases hj : j = i
    · subst hj
      rw [Known, head_extend, tracking_extend, or_self] at hc
      exact .inl (.inr hc)
    · rw [Known, head_extend_of_ne hj] at hc
      exact .inl hc
  | publish i h =>
    by_cases hj : j = i
    · subst hj
      rw [Known, head_publish, tracking_publish, or_self] at hc
      exact .inr (.inl hc)
    · rw [Known, tracking_publish_of_ne hj] at hc
      exact .inl hc

/-- **Soundness is kept by every step.** -/
theorem Sound.move (hsound : R.Sound g) (h : Move g R R') : R'.Sound g := by
  refine ⟨fun j => ?_, fun j k hjk c hj hk => ?_⟩
  · cases h with
    | fetch i =>
      by_cases hj : j = i
      · subst hj
        rw [tracking_fetch]
        exact g.ancestor_refl _
      · rw [tracking_fetch_of_ne hj]
        exact hsound.tracking_le j
    | extend | forward => exact hsound.tracking_le j
    | publish i h =>
      by_cases hj : j = i
      · subst hj
        rw [tracking_publish]
        exact g.ancestor_refl _
      · rw [tracking_publish_of_ne hj]
        exact (hsound.tracking_le j).trans h
  · rcases known_of_move h hj with hj' | hle | hother
    · rcases known_of_move h hk with hk' | hle | hother
      · exact (hsound.shared j k hjk c hj' hk').trans h.remote_le
      · exact hle
      · exact absurd hj (hother j hjk)
    · exact hle
    · exact absurd hk (hother k hjk.symm)

/-- **An unpublished commit is published by its own clone only.** -/
theorem Sound.not_ancestor_publish (hsound : R.Sound g) (hji : j ≠ i) (hc : R.Known g i c)
    (hno : ¬ g.Ancestor c R.remote) : ¬ g.Ancestor c (R.publish j).remote :=
  fun hle => hno (hsound.shared j i hji c (.inl hle) hc)

/-! ### Several steps -/

theorem Sound.moves (hsound : R.Sound g) (h : Relation.ReflTransGen (Move g) R R') :
    R'.Sound g := by
  induction h with
  | refl => exact hsound
  | tail _ h ih => exact ih.move h

theorem remote_le_of_moves (h : Relation.ReflTransGen (Move g) R R') :
    g.Ancestor R.remote R'.remote := by
  induction h with
  | refl => exact g.ancestor_refl _
  | tail _ h ih => exact ih.trans h.remote_le

theorem head_le_of_moves (h : Relation.ReflTransGen (Move g) R R') (i : ι) :
    g.Ancestor (R.head i) (R'.head i) := by
  induction h with
  | refl => exact g.ancestor_refl _
  | tail _ h ih => exact ih.trans (h.head_le i)

end Refs
end Dfuser
