import Mathlib.Data.List.Basic

/-!
# What is missing, transferred

Two stores hold things under names.  A loop goes through names and moves a thing from the
second store to the first one, unless the first one has something under that name already.

## Main definitions

* `Stores` — the two stores.
* `turn`, `run` — the loop.

## Main results

* `run_target`, `run_remote` — **what a run leaves in the two stores.**
* `isSome_run_target_iff` — the names in the first store are then those of both.
-/

namespace Dfuser
namespace Transfer

variable {ν β : Type*} [DecidableEq ν]

/-- A store that is filled, and one that is emptied. -/
@[ext]
structure Stores (ν β : Type*) where
  target : ν → Option β
  remote : ν → Option β

/-- What is under the name is moved, if the first store has nothing there. -/
def turn (s : Stores ν β) (n : ν) : Stores ν β :=
  match s.target n with
  | some _ => s
  | none =>
    { target := fun m => if m = n then s.remote n else s.target m
      remote := fun m => if m = n then none else s.remote m }

/-- The loop. -/
def run (s : Stores ν β) (names : List ν) : Stores ν β := names.foldl turn s

variable {s : Stores ν β} {n : ν}

theorem turn_of_some {b : β} (h : s.target n = some b) : turn s n = s := by
  simp only [turn, h]

theorem turn_of_none (h : s.target n = none) :
    turn s n = ⟨fun m => if m = n then s.remote n else s.target m,
      fun m => if m = n then none else s.remote m⟩ := by
  simp only [turn, h]

/-- Where both stores have nothing, nothing changes. -/
theorem turn_of_remote (h : s.target n = none) (hr : s.remote n = none) : turn s n = s := by
  rw [turn_of_none h]
  ext1
  · funext m
    dsimp only
    split
    · next hm => rw [hm, h, hr]
    · rfl
  · funext m
    dsimp only
    split
    · next hm => rw [hm, hr]
    · rfl

theorem turn_target (s : Stores ν β) (n m : ν) :
    (turn s n).target m = (s.target m).or (if m = n then s.remote m else none) := by
  cases h : s.target n with
  | some b =>
    rw [turn_of_some h]
    split
    · next hm => rw [hm, h, Option.some_or]
    · rw [Option.or_none]
  | none =>
    rw [turn_of_none h]
    dsimp only
    split
    · next hm => rw [hm, h, Option.none_or]
    · rw [Option.or_none]

theorem turn_remote (s : Stores ν β) (n m : ν) :
    (turn s n).remote m = if m = n ∧ s.target m = none then none else s.remote m := by
  cases h : s.target n with
  | some b =>
    rw [turn_of_some h, if_neg]
    rintro ⟨rfl, hm⟩
    rw [hm] at h
    cases h
  | none =>
    rw [turn_of_none h]
    dsimp only
    split
    · next hm => rw [if_pos ⟨hm, by rw [hm, h]⟩]
    · next hm => rw [if_neg fun hc => hm hc.1]

/-- **What a run leaves in the first store**: what was there, and what is missing from the
second one. -/
theorem run_target (s : Stores ν β) (names : List ν) (m : ν) :
    (run s names).target m = (s.target m).or (if m ∈ names then s.remote m else none) := by
  induction names generalizing s with
  | nil => simp [run]
  | cons n names ih =>
    have hstep : run s (n :: names) = run (turn s n) names := rfl
    rw [hstep, ih, turn_target, turn_remote]
    cases h : s.target m with
    | some b => rw [Option.some_or, Option.some_or, Option.some_or]
    | none =>
      rw [Option.none_or, Option.none_or]
      by_cases hm : m = n
      · simp [hm]
      · simp [hm]

/-- **What a run leaves in the second store.** -/
theorem run_remote (s : Stores ν β) (names : List ν) (m : ν) :
    (run s names).remote m = if m ∈ names ∧ s.target m = none then none else s.remote m := by
  induction names generalizing s with
  | nil => simp [run]
  | cons n names ih =>
    have hstep : run s (n :: names) = run (turn s n) names := rfl
    rw [hstep, ih, turn_target, turn_remote]
    by_cases hm : m = n
    · cases h : s.target m with
      | some b => simp [hm]
      | none => simp [hm]
    · simp [hm]

/-- A run over all names of the second store brings the first one the names of both. -/
theorem isSome_run_target_iff {names : List ν} (h : ∀ m, (s.remote m).isSome = true → m ∈ names)
    (m : ν) :
    ((run s names).target m).isSome = true ↔ (s.target m).isSome = true ∨
      (s.remote m).isSome = true := by
  rw [run_target, Option.isSome_or, Bool.or_eq_true]
  by_cases hm : m ∈ names
  · rw [if_pos hm]
  · have hnone : ¬ (s.remote m).isSome = true := fun hr => hm (h m hr)
    rw [if_neg hm]
    simp [hnone]

end Transfer
end Dfuser
