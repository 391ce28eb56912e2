import Mathlib.Logic.Equiv.Basic
import Dfuser.Lib.Transfer

/-!
# Stores merged into one another

A family of stores holds things under names.  A merge moves to one store what it lacks and
another one has.  Under each name, what the stores have is then what they had, in other places:
however many merges there are and of whichever stores, nothing is lost and nothing is doubled.

## Main definitions

* `merge`, `mergeAll` — one merge, and one after the other.

## Main results

* `merge_eq_perm`, `mergeAll_eq_perm` — **under each name, merges permute what the stores have.**
* `mergeAll_into` — what is merged into one store first stays there.
-/

namespace Dfuser
namespace Transfer

variable {ι ν β : Type*} [DecidableEq ι]

/-- The store `t` takes from the store `r` what it lacks. -/
def merge (s : ι → ν → Option β) (t r : ι) : ι → ν → Option β := fun i n =>
  if i = t then (s t n).or (s r n)
  else if i = r ∧ s t n = none then none
  else s i n

/-- Merges, one after the other. -/
def mergeAll (s : ι → ν → Option β) (pairs : List (ι × ι)) : ι → ν → Option β :=
  pairs.foldl (fun s p => merge s p.1 p.2) s

theorem merge_target (s : ι → ν → Option β) (t r : ι) (n : ν) :
    merge s t r t n = (s t n).or (s r n) := if_pos rfl

/-- Where the first store has something, nothing changes. -/
theorem merge_of_some {s : ι → ν → Option β} {t : ι} {n : ν} {b : β} (h : s t n = some b)
    (r i : ι) : merge s t r i n = s i n := by
  unfold merge
  split
  · next hi => rw [hi, h, Option.some_or]
  · rw [if_neg]
    rintro ⟨-, hnone⟩
    rw [h] at hnone
    cases hnone

/-- Where it has nothing, the two stores change places. -/
theorem merge_of_none {s : ι → ν → Option β} {t : ι} {n : ν} (h : s t n = none) (r i : ι) :
    merge s t r i n = s (Equiv.swap t r i) n := by
  unfold merge
  split
  · next hi => rw [hi, h, Option.none_or, Equiv.swap_apply_left]
  · next hit =>
    split
    · next hi => rw [hi.1, Equiv.swap_apply_right, h]
    · next hir =>
      rw [Equiv.swap_apply_of_ne_of_ne hit fun heq => hir ⟨heq, h⟩]

/-- **Under each name, a merge permutes what the stores have.** -/
theorem merge_eq_perm (s : ι → ν → Option β) (t r : ι) (n : ν) :
    ∃ σ : Equiv.Perm ι, ∀ i, merge s t r i n = s (σ i) n := by
  cases h : s t n with
  | some b => exact ⟨Equiv.refl ι, merge_of_some h r⟩
  | none => exact ⟨Equiv.swap t r, merge_of_none h r⟩

/-- **So do merges, one after the other.** -/
theorem mergeAll_eq_perm (s : ι → ν → Option β) (pairs : List (ι × ι)) (n : ν) :
    ∃ σ : Equiv.Perm ι, ∀ i, mergeAll s pairs i n = s (σ i) n := by
  induction pairs generalizing s with
  | nil => exact ⟨Equiv.refl ι, fun i => rfl⟩
  | cons p pairs ih =>
    obtain ⟨σ, hσ⟩ := ih (merge s p.1 p.2)
    obtain ⟨τ, hτ⟩ := merge_eq_perm s p.1 p.2 n
    exact ⟨σ.trans τ, fun i => (hσ i).trans (hτ (σ i))⟩

/-- **What is merged into one store first stays there**: under each name it has in the end what
it had, or else what the first of the others has. -/
theorem mergeAll_into (s : ι → ν → Option β) (t : ι) (rs : List ι) (n : ν) :
    mergeAll s (rs.map fun r => (t, r)) t n = (t :: rs).findSome? fun i => s i n := by
  induction rs generalizing s with
  | nil => cases h : s t n <;> simp [mergeAll, h]
  | cons r rs ih =>
    have hstep : mergeAll s ((r :: rs).map fun r => (t, r)) t n =
        mergeAll (merge s t r) (rs.map fun r => (t, r)) t n := rfl
    rw [hstep, ih, List.findSome?_cons, List.findSome?_cons, List.findSome?_cons, merge_target]
    cases ht : s t n with
    | some b => rfl
    | none =>
      cases hr : s r n with
      | some b => rfl
      | none =>
        -- neither has anything, and the merge has changed nothing
        have hsame : (fun i => merge s t r i n) = fun i => s i n := by
          funext i
          rw [merge_of_none ht]
          by_cases hit : i = t
          · rw [hit, Equiv.swap_apply_left, hr, ht]
          · by_cases hir : i = r
            · rw [hir, Equiv.swap_apply_right, ht, hr]
            · rw [Equiv.swap_apply_of_ne_of_ne hit hir]
        rw [hsame]
        rfl

end Transfer
end Dfuser
