import Mathlib.Logic.Function.Basic
import Mathlib.Order.Defs.Unbundled

/-!
# Replicas of one value

A main copy of a value and replicas of it.  The values are ordered by which comes before
which.  A replica that gets in touch with the main copy takes its value over where its own
comes before that, and hands its own over where that is the later one; where neither comes
before the other, nothing happens.

* `Replicas`, `Replicas.sync`, `Replicas.syncs` — copies, and replicas in touch with the
  main one, one after another.
* `Replicas.Top` — a value some copy has, and no copy is beyond.
* `Replicas.agree_iff` — **when two rounds make all copies agree.**
-/

namespace Dfuser

/-- A main copy of a value, and replicas. -/
structure Replicas (ι α : Type*) where
  main : α
  copy : ι → α

namespace Replicas

variable {ι α : Type*} [DecidableEq ι] (r : α → α → Prop)

open Classical in
/-- Replica `i` gets in touch with the main copy. -/
noncomputable def sync (R : Replicas ι α) (i : ι) : Replicas ι α :=
  if r (R.copy i) R.main then { R with copy := Function.update R.copy i R.main }
  else if r R.main (R.copy i) then { R with main := R.copy i }
  else R

/-- The replicas of a list do, in turn. -/
noncomputable def syncs (R : Replicas ι α) (l : List ι) : Replicas ι α := l.foldl (sync r) R

/-- Some copy has the value. -/
def Holds (R : Replicas ι α) (a : α) : Prop := R.main = a ∨ ∃ i, R.copy i = a

/-- Some copy has the value, and no copy is beyond it. -/
structure Top (R : Replicas ι α) (a : α) : Prop where
  holds : R.Holds a
  main_le : r R.main a
  copy_le : ∀ i, r (R.copy i) a

/-- Every replica has the value of the main copy. -/
def Agree (R : Replicas ι α) : Prop := ∀ i, R.copy i = R.main

variable {r} {R : Replicas ι α} {i j : ι} {a : α} {l : List ι}

/-- What one replica does to the main copy and to the replicas. -/
theorem sync_cases (r : α → α → Prop) (R : Replicas ι α) (i : ι) :
    (r (R.copy i) R.main ∧ (R.sync r i).main = R.main ∧ (R.sync r i).copy i = R.main) ∨
    (¬ r (R.copy i) R.main ∧ r R.main (R.copy i) ∧ (R.sync r i).main = R.copy i ∧
      (R.sync r i).copy i = R.copy i) ∨
    (¬ r (R.copy i) R.main ∧ ¬ r R.main (R.copy i) ∧ R.sync r i = R) := by
  unfold sync
  split
  · next h => exact .inl ⟨h, rfl, Function.update_self ..⟩
  · next h =>
    split
    · next h' => exact .inr (.inl ⟨h, h', rfl, rfl⟩)
    · next h' => exact .inr (.inr ⟨h, h', rfl⟩)

/-- The other replicas are left alone. -/
theorem copy_sync_of_ne (h : j ≠ i) : (R.sync r i).copy j = R.copy j := by
  unfold sync
  split
  · exact Function.update_of_ne h ..
  · split <;> rfl

theorem syncs_cons (R : Replicas ι α) (i : ι) (l : List ι) :
    R.syncs r (i :: l) = (R.sync r i).syncs r l := rfl

theorem syncs_append (R : Replicas ι α) (l l' : List ι) :
    R.syncs r (l ++ l') = (R.syncs r l).syncs r l' := List.foldl_append

/-! ### Values move forward -/

/-- No value comes up that no copy had. -/
theorem Holds.of_sync (h : (R.sync r i).Holds a) : R.Holds a := by
  rcases h with rfl | ⟨j, rfl⟩
  · rcases sync_cases r R i with ⟨-, hmain, -⟩ | ⟨-, -, hmain, -⟩ | ⟨-, -, hsame⟩
    · exact .inl hmain.symm
    · exact .inr ⟨i, hmain.symm⟩
    · exact .inl (by rw [hsame])
  · by_cases hj : j = i
    · subst hj
      rcases sync_cases r R j with ⟨-, -, hcopy⟩ | ⟨-, -, -, hcopy⟩ | ⟨-, -, hsame⟩
      · exact .inl hcopy.symm
      · exact .inr ⟨j, hcopy.symm⟩
      · exact .inr ⟨j, by rw [hsame]⟩
    · exact .inr ⟨j, (copy_sync_of_ne hj).symm⟩

theorem Holds.of_syncs (h : (R.syncs r l).Holds a) : R.Holds a := by
  induction l generalizing R with
  | nil => exact h
  | cons i l ih => exact (ih h).of_sync

variable [IsPartialOrder α r]

theorem main_le_sync : r R.main (R.sync r i).main := by
  rcases sync_cases r R i with ⟨-, hmain, -⟩ | ⟨-, hle, hmain, -⟩ | ⟨-, -, hsame⟩
  · rw [hmain]
    exact refl_of r _
  · rwa [hmain]
  · rw [hsame]
    exact refl_of r _

theorem copy_le_sync : r (R.copy j) ((R.sync r i).copy j) := by
  by_cases hj : j = i
  · subst hj
    rcases sync_cases r R j with ⟨hle, -, hcopy⟩ | ⟨-, -, -, hcopy⟩ | ⟨-, -, hsame⟩
    · rwa [hcopy]
    · rw [hcopy]
      exact refl_of r _
    · rw [hsame]
      exact refl_of r _
  · rw [copy_sync_of_ne hj]
    exact refl_of r _

theorem main_le_syncs : r R.main (R.syncs r l).main := by
  induction l generalizing R with
  | nil => exact refl_of r _
  | cons i l ih => exact trans_of r main_le_sync ih

theorem copy_le_syncs : r (R.copy j) ((R.syncs r l).copy j) := by
  induction l generalizing R with
  | nil => exact refl_of r _
  | cons i l ih => exact trans_of r copy_le_sync ih

omit [IsPartialOrder α r] in
/-- A replica behind the main copy takes its value over. -/
theorem sync_of_le_main (h : r (R.copy i) R.main) :
    (R.sync r i).main = R.main ∧ (R.sync r i).copy i = R.main := by
  rcases sync_cases r R i with ⟨-, hmain, hcopy⟩ | ⟨hno, -⟩ | ⟨hno, -⟩
  · exact ⟨hmain, hcopy⟩
  · exact absurd h hno
  · exact absurd h hno

/-- A replica ahead of the main copy hands its value over. -/
theorem sync_of_main_le (h : r R.main (R.copy i)) :
    (R.sync r i).main = R.copy i ∧ (R.sync r i).copy i = R.copy i := by
  rcases sync_cases r R i with ⟨hle, hmain, hcopy⟩ | ⟨-, -, hmain, hcopy⟩ | ⟨-, hno, -⟩
  · rw [hmain, hcopy]
    exact ⟨antisymm_of r h hle, antisymm_of r h hle⟩
  · exact ⟨hmain, hcopy⟩
  · exact absurd h hno

/-! ### The value all copies end at -/

/-- A top value that the main copy has stays there. -/
theorem Top.main_sync (h : R.Top r a) (hmain : R.main = a) : (R.sync r i).main = a := by
  rcases sync_cases r R i with ⟨-, hmain', -⟩ | ⟨-, hle, hmain', -⟩ | ⟨-, -, hsame⟩
  · rw [hmain', hmain]
  · rw [hmain']
    exact antisymm_of r (h.copy_le i) (hmain ▸ hle)
  · rw [hsame, hmain]

/-- A replica with a top value hands it over. -/
theorem Top.main_sync_of_copy (h : R.Top r a) (hcopy : R.copy i = a) : (R.sync r i).main = a := by
  rcases sync_cases r R i with ⟨hle, hmain, -⟩ | ⟨-, -, hmain, -⟩ | ⟨-, hno, -⟩
  · rw [hmain]
    exact antisymm_of r h.main_le (hcopy ▸ hle)
  · rw [hmain, hcopy]
  · exact absurd (hcopy ▸ h.main_le) hno

omit [IsPartialOrder α r] in
/-- A replica takes over a top value of the main copy, and keeps one of its own. -/
theorem Top.copy_sync (h : R.Top r a) (hmain : R.main = a) (hj : j = i ∨ R.copy j = a) :
    (R.sync r i).copy j = a := by
  by_cases hji : j = i
  · subst hji
    rcases sync_cases r R j with ⟨-, -, hcopy⟩ | ⟨hno, -⟩ | ⟨hno, -⟩
    · rw [hcopy, hmain]
    · exact absurd (hmain ▸ h.copy_le j) hno
    · exact absurd (hmain ▸ h.copy_le j) hno
  · rw [copy_sync_of_ne hji]
    exact hj.resolve_left hji

theorem Top.sync (h : R.Top r a) : (R.sync r i).Top r a := by
  have hholds : (R.sync r i).Holds a := by
    rcases h.holds with hmain | ⟨j, hj⟩
    · exact .inl (h.main_sync hmain)
    · by_cases hji : j = i
      · exact .inl (h.main_sync_of_copy (hji ▸ hj))
      · exact .inr ⟨j, (copy_sync_of_ne hji).trans hj⟩
  refine ⟨hholds, ?_, fun j => ?_⟩
  · rcases sync_cases r R i with ⟨-, hmain, -⟩ | ⟨-, -, hmain, -⟩ | ⟨-, -, hsame⟩
    · rw [hmain]
      exact h.main_le
    · rw [hmain]
      exact h.copy_le i
    · rw [hsame]
      exact h.main_le
  · by_cases hji : j = i
    · subst hji
      rcases sync_cases r R j with ⟨-, -, hcopy⟩ | ⟨-, -, -, hcopy⟩ | ⟨-, -, hsame⟩
      · rw [hcopy]
        exact h.main_le
      · rw [hcopy]
        exact h.copy_le j
      · rw [hsame]
        exact h.copy_le j
    · rw [copy_sync_of_ne hji]
      exact h.copy_le j

theorem Top.syncs (h : R.Top r a) : (R.syncs r l).Top r a := by
  induction l generalizing R with
  | nil => exact h
  | cons i l ih => exact ih h.sync

/-- After a round the main copy has the top value. -/
theorem Top.main_syncs (h : R.Top r a) (hl : R.main = a ∨ ∃ j ∈ l, R.copy j = a) :
    (R.syncs r l).main = a := by
  induction l generalizing R with
  | nil =>
    rcases hl with hmain | ⟨j, hj, -⟩
    · exact hmain
    · cases hj
  | cons i l ih =>
    apply ih h.sync
    rcases hl with hmain | ⟨j, hj, hcopy⟩
    · exact .inl (h.main_sync hmain)
    · by_cases hji : j = i
      · exact .inl (h.main_sync_of_copy (hji ▸ hcopy))
      · refine .inr ⟨j, (List.mem_cons.mp hj).resolve_left hji, ?_⟩
        rw [copy_sync_of_ne hji, hcopy]

/-- After another round every replica has it too. -/
theorem Top.copy_syncs (h : R.Top r a) (hmain : R.main = a) (hl : j ∈ l ∨ R.copy j = a) :
    (R.syncs r l).copy j = a := by
  induction l generalizing R with
  | nil => exact hl.resolve_left List.not_mem_nil
  | cons i l ih =>
    apply ih h.sync (h.main_sync hmain)
    rcases hl with hj | hcopy
    · rcases List.mem_cons.mp hj with hji | hj
      · exact .inr (h.copy_sync hmain (.inl hji))
      · exact .inl hj
    · exact .inr (h.copy_sync hmain (.inr hcopy))

/-- Where copies come to agree, what they agree on is a top value. -/
theorem top_of_agree (h : (R.syncs r l).Agree) : R.Top r (R.syncs r l).main := by
  refine ⟨Holds.of_syncs (.inl rfl), main_le_syncs, fun i => ?_⟩
  have hle : r (R.copy i) ((R.syncs r l).copy i) := copy_le_syncs
  rwa [h i] at hle

/-- **When two rounds make all copies agree**: when one of them has a value that none is
beyond. -/
theorem agree_iff {l l' : List ι} (hl : ∀ i, i ∈ l) (hl' : ∀ i, i ∈ l') :
    (R.syncs r (l ++ l')).Agree ↔ ∃ a, R.Top r a := by
  constructor
  · exact fun h => ⟨_, top_of_agree h⟩
  · rintro ⟨a, h⟩ i
    have hmain : (R.syncs r l).main = a :=
      h.main_syncs (h.holds.imp_right fun ⟨j, hj⟩ => ⟨j, hl j, hj⟩)
    rw [syncs_append, h.syncs.copy_syncs hmain (.inl (hl' i)), h.syncs.main_syncs (.inl hmain)]

end Replicas
end Dfuser
