import Mathlib.Data.List.Induction
import Mathlib.Data.Nat.Bitwise
import Mathlib.Tactic.Ring

/-!
# Groups of bits

A word is filled with groups of `w` bits by shifting what is there up and adding the
next group below, and read by cutting it into groups again, the highest first.

* `joinGroups w gs` — the groups `gs` in one number, the first one highest.
* `groups w n v` — the `n` lowest groups of `v`, the highest first.
* `joinGroups_lt` — the number takes `w` bits a group.
* `groups_joinGroups`, `joinGroups_groups` — **cutting undoes joining**, and joining
  undoes cutting.
-/

namespace Dfuser

/-- Put groups of `w` bits into a number, each below the ones before. -/
def joinGroups (w : ℕ) (gs : List ℕ) : ℕ := gs.foldl (fun v g => (v <<< w) ||| g) 0

/-- The `n` lowest groups of `w` bits of `v`, the highest first. -/
def groups (w : ℕ) : ℕ → ℕ → List ℕ
  | 0, _ => []
  | n + 1, v => groups w n (v >>> w) ++ [v % 2 ^ w]

@[simp] theorem joinGroups_nil (w : ℕ) : joinGroups w [] = 0 := rfl

@[simp] theorem groups_zero (w v : ℕ) : groups w 0 v = [] := rfl

theorem groups_succ (w n v : ℕ) : groups w (n + 1) v = groups w n (v >>> w) ++ [v % 2 ^ w] := rfl

@[simp] theorem length_groups (w n v : ℕ) : (groups w n v).length = n := by
  induction n generalizing v with
  | zero => rfl
  | succ n ih => simp [groups_succ, ih]

/-- A group that fits goes below without touching the groups before. -/
theorem shiftLeft_or_eq {w g : ℕ} (hg : g < 2 ^ w) (v : ℕ) : (v <<< w) ||| g = v * 2 ^ w + g := by
  rw [← Nat.shiftLeft_add_eq_or_of_lt hg, Nat.shiftLeft_eq]

theorem joinGroups_concat {w g : ℕ} (hg : g < 2 ^ w) (gs : List ℕ) :
    joinGroups w (gs ++ [g]) = joinGroups w gs * 2 ^ w + g := by
  rw [joinGroups, List.foldl_append, List.foldl_cons, List.foldl_nil, shiftLeft_or_eq hg]
  rfl

/-- **The groups take `w` bits each.** -/
theorem joinGroups_lt {w : ℕ} {gs : List ℕ} (h : ∀ g ∈ gs, g < 2 ^ w) :
    joinGroups w gs < 2 ^ (w * gs.length) := by
  induction gs using List.reverseRecOn with
  | nil => simp
  | append_singleton gs g ih =>
    have hg : g < 2 ^ w := h g (by simp)
    have hgs := ih fun a ha => h a (List.mem_append_left _ ha)
    rw [joinGroups_concat hg, List.length_append, List.length_singleton, Nat.mul_succ, Nat.pow_add]
    calc joinGroups w gs * 2 ^ w + g
        < joinGroups w gs * 2 ^ w + 2 ^ w := Nat.add_lt_add_left hg _
      _ = (joinGroups w gs + 1) * 2 ^ w := by ring
      _ ≤ 2 ^ (w * gs.length) * 2 ^ w := Nat.mul_le_mul_right _ hgs

/-- **Cutting undoes joining.** -/
theorem groups_joinGroups {w : ℕ} {gs : List ℕ} (h : ∀ g ∈ gs, g < 2 ^ w) :
    groups w gs.length (joinGroups w gs) = gs := by
  induction gs using List.reverseRecOn with
  | nil => rfl
  | append_singleton gs g ih =>
    have hg : g < 2 ^ w := h g (by simp)
    have hpos : 0 < 2 ^ w := Nat.two_pow_pos w
    have hhigh : (joinGroups w gs * 2 ^ w + g) >>> w = joinGroups w gs := by
      rw [Nat.shiftRight_eq_div_pow, Nat.add_comm, Nat.add_mul_div_right _ _ hpos,
        Nat.div_eq_of_lt hg, Nat.zero_add]
    have hlow : (joinGroups w gs * 2 ^ w + g) % 2 ^ w = g := by
      rw [Nat.add_comm, Nat.add_mul_mod_self_right, Nat.mod_eq_of_lt hg]
    rw [joinGroups_concat hg, List.length_append, List.length_singleton, groups_succ, hhigh, hlow,
      ih fun a ha => h a (List.mem_append_left _ ha)]

/-- **Joining undoes cutting**, of a number that has no more groups. -/
theorem joinGroups_groups {w n v : ℕ} (h : v < 2 ^ (w * n)) : joinGroups w (groups w n v) = v := by
  induction n generalizing v with
  | zero =>
    have : v = 0 := by simpa using h
    rw [this]
    rfl
  | succ n ih =>
    have hhigh : v >>> w < 2 ^ (w * n) := by
      rw [Nat.shiftRight_eq_div_pow, Nat.div_lt_iff_lt_mul (Nat.two_pow_pos w), ← Nat.pow_add]
      exact h
    rw [groups_succ, joinGroups_concat (Nat.mod_lt _ (Nat.two_pow_pos w)), ih hhigh,
      Nat.shiftRight_eq_div_pow, Nat.mul_comm, Nat.div_add_mod]

end Dfuser
