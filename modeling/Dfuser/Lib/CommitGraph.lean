import Mathlib.Logic.Relation

/-!
# Commit graphs

A version history: commits with their parents, and no commit that comes before
itself.  A merge base of two commits is a common ancestor that is not a proper
ancestor of another one.

## Main definitions

* `CommitGraph`, `CommitGraph.Ancestor`, `CommitGraph.ProperAncestor`.
* `CommitGraph.IsMergeBase` — what may be reported as the merge base of two commits.

## Main results

* `CommitGraph.isMergeBase_left`, `CommitGraph.isMergeBase_right` — **a commit is the
  merge base exactly when it is an ancestor of the other.**
-/

namespace Dfuser

variable {α : Type*}

/-- Commits and their parents. -/
structure CommitGraph (α : Type*) where
  parents : α → List α
  acyclic : ∀ c, ¬ Relation.TransGen (fun a b => a ∈ parents b) c c

namespace CommitGraph

/-- `a` is `b`, or comes before it. -/
def Ancestor (g : CommitGraph α) (a b : α) : Prop :=
  Relation.ReflTransGen (fun a b => a ∈ g.parents b) a b

/-- `a` comes before `b`. -/
def ProperAncestor (g : CommitGraph α) (a b : α) : Prop := g.Ancestor a b ∧ a ≠ b

/-- What may be reported as the merge base of `a` and `b`: a common ancestor that is
not a proper ancestor of another one, or nothing when there is no common ancestor. -/
def IsMergeBase (g : CommitGraph α) (a b : α) : Option α → Prop
  | none => ∀ c, ¬ (g.Ancestor c a ∧ g.Ancestor c b)
  | some m => g.Ancestor m a ∧ g.Ancestor m b ∧
    ∀ c, g.Ancestor c a → g.Ancestor c b → ¬ g.ProperAncestor m c

variable {g : CommitGraph α} {a b : α}

theorem ancestor_refl (g : CommitGraph α) (a : α) : g.Ancestor a a := Relation.ReflTransGen.refl

theorem isMergeBase_comm {o : Option α} (h : g.IsMergeBase a b o) : g.IsMergeBase b a o := by
  cases o with
  | none => exact fun c hc => h c hc.symm
  | some m => exact ⟨h.2.1, h.1, fun c hb ha => h.2.2 c ha hb⟩

/-- **A commit is the merge base exactly when it is an ancestor of the other.** -/
theorem isMergeBase_left {o : Option α} (h : g.IsMergeBase a b o) :
    o = some a ↔ g.Ancestor a b := by
  constructor
  · rintro rfl
    exact h.2.1
  · intro hab
    cases o with
    | none => exact absurd ⟨g.ancestor_refl a, hab⟩ (h a)
    | some m =>
      by_cases hm : m = a
      · rw [hm]
      · exact absurd ⟨h.1, hm⟩ (h.2.2 a (g.ancestor_refl a) hab)

theorem isMergeBase_right {o : Option α} (h : g.IsMergeBase a b o) :
    o = some b ↔ g.Ancestor b a := isMergeBase_left (isMergeBase_comm h)

end CommitGraph
end Dfuser
