import Mathlib.Data.List.Nodup
import Mathlib.Data.Set.Basic

/-!
# Loops that rename

A loop goes through a list of names and gives each one that wants another name its target,
unless the target is taken.  Names are of any type; the state is the set of those in use.

A loop has settled when each name it has given is allowed, and a second one would rename
nothing.  Targets of targets want no other name, so what a name in the way may do is limited:
it is not in the list, wants no other name, or finds its own target taken.

* `Moves`, `turn`, `run` — a renaming, one turn of the loop, and the loop.
* `Stays` — a name that is in use all the time.
* `Settled` — what a loop is to bring about.
* `settled_iff` — **when a loop settles**, in terms of the names before it.
-/

namespace Dfuser
namespace Renaming

variable {α : Type*} (wants : α → Prop) (target : α → α)

/-- The name is in use, wants another one, and that is free. -/
def Moves (S : Set α) (f : α) : Prop := f ∈ S ∧ wants f ∧ target f ∉ S

/-- The names in use after the turn of `f`. -/
def turn (S : Set α) (f : α) : Set α :=
  {n | (n ∈ S ∧ ¬ (Moves wants target S f ∧ n = f)) ∨ (Moves wants target S f ∧ n = target f)}

/-- The names in use after the turns of a list. -/
def run (S : Set α) (L : List α) : Set α := L.foldl (turn wants target) S

/-- The name is in use, and in its turn it wants no other name, or that is taken: from the
start, or by a name whose turn comes before. -/
def Stays (S : Set α) (L : List α) (y : α) : Prop :=
  y ∈ S ∧ (¬ wants y ∨ target y ∈ S ∨
    ∀ pre suf, L = pre ++ y :: suf → ∃ z ∈ pre, wants z ∧ target z = target y)

/-- Each name given is allowed, and of the visible names none would be given another one. -/
def Settled (allowed visible : α → Prop) (S : Set α) (L : List α) : Prop :=
  (∀ pre f suf, L = pre ++ f :: suf → Moves wants target (run wants target S pre) f →
    allowed (target f)) ∧
  ∀ f, visible f → ¬ Moves wants target (run wants target S L) f

variable {wants target} {S : Set α} {L : List α} {f y : α}

theorem mem_turn_iff {n : α} : n ∈ turn wants target S f ↔
    (n ∈ S ∧ ¬ (Moves wants target S f ∧ n = f)) ∨ (Moves wants target S f ∧ n = target f) :=
      Iff.rfl

theorem run_cons (S : Set α) (f : α) (L : List α) :
    run wants target S (f :: L) = run wants target (turn wants target S f) L := rfl

theorem run_append (S : Set α) (K L : List α) :
    run wants target S (K ++ L) = run wants target (run wants target S K) L := List.foldl_append

theorem run_concat (S : Set α) (K : List α) (f : α) :
    run wants target S (K ++ [f]) = turn wants target (run wants target S K) f := run_append S K [f]

/-! ### Names that stay -/

theorem mem_turn_of_not_moves (hy : y ∈ S) (h : ¬ (Moves wants target S f ∧ y = f)) :
    y ∈ turn wants target S f := .inl ⟨hy, h⟩

/-- A name whose turn does not come is not taken away. -/
theorem mem_run_of_notMem (hy : y ∈ S) (h : y ∉ L) : y ∈ run wants target S L := by
  induction L generalizing S with
  | nil => exact hy
  | cons f L ih =>
    rw [List.mem_cons, not_or] at h
    exact ih (mem_turn_of_not_moves hy fun hmove => h.1 hmove.2) h.2

/-- In its turn a name that was there is in use. -/
theorem mem_run_in_turn (hnodup : L.Nodup) (hf : f ∈ S) {pre suf : List α}
    (heq : L = pre ++ f :: suf) : f ∈ run wants target S pre := by
  apply mem_run_of_notMem hf
  intro hpre
  rw [heq] at hnodup
  exact (List.nodup_append.mp hnodup).2.2 f hpre f List.mem_cons_self rfl

/-- A name that wants no other one is not taken away. -/
theorem mem_run_of_not_wants (hy : y ∈ S) (h : ¬ wants y) : y ∈ run wants target S L := by
  induction L generalizing S with
  | nil => exact hy
  | cons f L ih =>
    apply ih (mem_turn_of_not_moves hy _)
    rintro ⟨hmoves, rfl⟩
    exact h hmoves.2.1

/-- After its turn a name has its target taken. -/
theorem target_mem_turn (hf : f ∈ S) (hwants : wants f) : target f ∈ turn wants target S f := by
  by_cases htarget : target f ∈ S
  · exact mem_turn_of_not_moves htarget fun h => h.1.2.2 htarget
  · exact .inr ⟨⟨hf, hwants, htarget⟩, rfl⟩

/-- In its own turn a name may be in use still. -/
theorem mem_run_of_blocked (hnodup : L.Nodup) (hy : y ∈ S)
    (h : ∀ pre suf, L = pre ++ y :: suf → target y ∈ run wants target S pre) :
    y ∈ run wants target S L := by
  by_cases hmem : y ∈ L
  · obtain ⟨pre, suf, rfl⟩ := List.append_of_mem hmem
    have hsuf : y ∉ suf := (List.nodup_cons.mp (List.nodup_append.mp hnodup).2.1).1
    have hturn : y ∈ run wants target S pre := mem_run_in_turn hnodup hy rfl
    rw [run_append, run_cons]
    exact mem_run_of_notMem (mem_turn_of_not_moves hturn fun hmove =>
      hmove.1.2.2 (h pre suf rfl)) hsuf
  · exact mem_run_of_notMem hy hmem

/-- Where a name in use comes from. -/
theorem mem_or_exists_moves (hy : y ∈ run wants target S L) :
    y ∈ S ∨ ∃ pre f suf, L = pre ++ f :: suf ∧ Moves wants target (run wants target S pre) f ∧
      y = target f := by
  induction L generalizing S with
  | nil => exact .inl hy
  | cons g L ih =>
    rcases ih hy with (⟨hin, -⟩ | ⟨hmoves, rfl⟩) | ⟨pre, f, suf, rfl, hmoves, rfl⟩
    · exact .inl hin
    · exact .inr ⟨[], g, L, rfl, hmoves, rfl⟩
    · exact .inr ⟨g :: pre, f, suf, rfl, hmoves, rfl⟩

/-- A name that has been given up is free, unless it is given to another one. -/
theorem notMem_run_of_moves (hself : target f ≠ f) {pre rest : List α}
    (hmoves : Moves wants target (run wants target S pre) f)
    (hnever : ∀ a z b, rest = a ++ z :: b →
      Moves wants target (run wants target S (pre ++ [f] ++ a)) z → f ≠ target z) :
    f ∉ run wants target S (pre ++ f :: rest) := by
  intro hmem
  rw [List.append_cons, run_append] at hmem
  rcases mem_or_exists_moves hmem with hstill | ⟨a, z, b, hrest, hz, hsame⟩
  · rw [run_concat] at hstill
    rcases hstill with ⟨-, hstays⟩ | ⟨-, hgiven⟩
    · exact hstays ⟨hmoves, rfl⟩
    · exact hself hgiven.symm
  · rw [← run_append] at hz
    exact hnever a z b hrest hz hsame

/-! ### Loops that settle -/

section Settled

variable {allowed visible : α → Prop}

/-- A name that stays is in use at every moment. -/
theorem Stays.mem_run (hsettles : ∀ f, ¬ wants (target (target f))) (hnodup : L.Nodup)
    (hin : ∀ f ∈ L, f ∈ S) (h : Stays wants target S L (target f)) {pre : List α}
    (hpre : pre <+: L) : target f ∈ run wants target S pre := by
  obtain ⟨hy, hnot | htaken | hbefore⟩ := h
  · exact mem_run_of_not_wants hy hnot
  · exact mem_run_of_blocked (hnodup.sublist hpre.sublist) hy fun pre' suf' _ =>
      mem_run_of_not_wants htaken (hsettles f)
  · apply mem_run_of_blocked (hnodup.sublist hpre.sublist) hy
    intro pre' suf' heq
    obtain ⟨rest, rfl⟩ := hpre
    obtain ⟨z, hz, hwants, htarget⟩ := hbefore pre' (suf' ++ rest) (by rw [heq]; simp)
    -- after the turn of the name before it, the target is in use
    obtain ⟨a, b, rfl⟩ := List.append_of_mem hz
    have hsplit : pre ++ rest = a ++ z :: (b ++ target f :: (suf' ++ rest)) := by simp [heq]
    have hz' : z ∈ run wants target S a :=
      mem_run_in_turn hnodup (hin z (by simp [hsplit])) hsplit
    have htaken : target z ∈ turn wants target (run wants target S a) z :=
      target_mem_turn hz' hwants
    rw [← htarget, run_append, run_cons]
    exact mem_run_of_not_wants htaken (by rw [htarget]; exact hsettles f)

variable (hself : ∀ f, wants f → target f ≠ f) (hnodup : L.Nodup)
  (hL : ∀ f, f ∈ L ↔ f ∈ S ∧ visible f)
include hself hnodup hL

theorem settled_of_stays (hsettles : ∀ f, ¬ wants (target (target f)))
    (hallowed : ∀ y, allowed y → ¬ wants y)
    (h : ∀ f ∈ L, wants f → allowed (target f) ∨ Stays wants target S L (target f)) :
    Settled wants target allowed visible S L := by
  have hin : ∀ f ∈ L, f ∈ S := fun f hf => ((hL f).mp hf).1
  have hgiven : ∀ pre f suf, L = pre ++ f :: suf → Moves wants target (run wants target S pre) f →
      allowed (target f) := by
    rintro pre f suf heq ⟨hf, hwants, hfree⟩
    rcases h f (by simp [heq]) hwants with hallow | hstays
    · exact hallow
    · exact absurd (hstays.mem_run hsettles hnodup hin ⟨_, heq.symm⟩) hfree
  refine ⟨hgiven, ?_⟩
  rintro f hvisible ⟨hf, hwants, hfree⟩
  -- a name that was given wants no other one
  have hnew : ∀ pre g suf, L = pre ++ g :: suf → Moves wants target (run wants target S pre) g →
      f ≠ target g := by
    rintro pre g suf heq hmoves rfl
    exact hallowed _ (hgiven pre g suf heq hmoves) hwants
  have hfS : f ∈ S := by
    rcases mem_or_exists_moves hf with hfS | ⟨pre, g, suf, heq, hmoves, hfg⟩
    · exact hfS
    · exact absurd hfg (hnew pre g suf heq hmoves)
  have hfL : f ∈ L := (hL f).mpr ⟨hfS, hvisible⟩
  obtain ⟨pre, suf, heq⟩ := List.append_of_mem hfL
  by_cases hmoves : Moves wants target (run wants target S pre) f
  · -- it would have been renamed in its turn
    rw [heq] at hf
    refine notMem_run_of_moves (hself f hwants) hmoves ?_ hf
    intro a g b hsuf hmoves'
    exact hnew _ g b (by rw [heq, hsuf]; simp) hmoves'
  · -- its target was taken, and is so in the end
    have hturn : f ∈ run wants target S pre := mem_run_in_turn hnodup hfS heq
    have htaken : target f ∈ run wants target S pre := by
      by_contra hnot
      exact hmoves ⟨hturn, hwants, hnot⟩
    rcases h f hfL hwants with hallow | hstays
    · apply hfree
      rw [heq, run_append]
      exact mem_run_of_not_wants htaken (hallowed _ hallow)
    · exact hfree (hstays.mem_run hsettles hnodup hin (List.prefix_refl L))

theorem stays_of_settled (h : Settled wants target allowed visible S L) (hf : f ∈ L)
    (hwants : wants f) (hnot : ¬ allowed (target f)) : Stays wants target S L (target f) := by
  obtain ⟨hgiven, hagain⟩ := h
  have hin : ∀ f ∈ L, f ∈ S := fun f hf => ((hL f).mp hf).1
  -- the target is never given
  have hnever : ∀ pre z suf, L = pre ++ z :: suf → Moves wants target (run wants target S pre) z →
      target f ≠ target z := by
    intro pre z suf heq hmoves hsame
    rw [hsame] at hnot
    exact hnot (hgiven pre z suf heq hmoves)
  have horiginal : ∀ {z pre suf}, L = pre ++ z :: suf → z ∈ run wants target S pre :=
    fun {z} _ _ heq => mem_run_in_turn hnodup (hin z (by simp [heq])) heq
  constructor
  · by_contra hfree
    obtain ⟨pre, suf, heq⟩ := List.append_of_mem hf
    refine hnever pre f suf heq ⟨horiginal heq, hwants, ?_⟩ rfl
    intro hmem
    rcases mem_or_exists_moves hmem with hS | ⟨pre', z, suf', hpre', hmoves, hsame⟩
    · exact hfree hS
    · exact hnever pre' z (suf' ++ f :: suf) (by rw [heq, hpre']; simp) hmoves hsame
  · by_contra hcases
    simp only [not_or, not_not, not_forall, not_exists, not_and, exists_prop] at hcases
    obtain ⟨hwants', hfree, pre, suf, heq, hbefore⟩ := hcases
    -- in its turn the target is given another name, and it does not come back
    have hmoves : Moves wants target (run wants target S pre) (target f) := by
      refine ⟨horiginal heq, hwants', ?_⟩
      intro hmem
      rcases mem_or_exists_moves hmem with hS | ⟨pre', z, suf', rfl, hz, hsame⟩
      · exact hfree hS
      · exact hbefore z (by simp) hz.2.1 hsame.symm
    have hgone : ∀ pre' suf', suf = pre' ++ suf' →
        target f ∉ run wants target S (pre ++ target f :: pre') := by
      intro pre' suf' hsuf
      refine notMem_run_of_moves (hself _ hwants') hmoves ?_
      intro a z b hpre' hz
      exact hnever _ z (b ++ suf') (by rw [heq, hsuf, hpre']; simp) hz
    rw [heq, List.mem_append, List.mem_cons] at hf
    rcases hf with hpre | hsame | hsuf
    · -- a name before it is left with its target free
      obtain ⟨a, b, rfl⟩ := List.append_of_mem hpre
      have hstill : f ∈ run wants target S L := by
        have hsplit : L = (a ++ [f]) ++ (b ++ target f :: suf) := by rw [heq]; simp
        have hrest : f ∉ b ++ target f :: suf := by
          intro hmem
          rw [hsplit, List.append_assoc] at hnodup
          exact (List.nodup_cons.mp (List.nodup_append.mp hnodup).2.1).1 hmem
        have hturn : f ∈ run wants target S a := horiginal (by rw [hsplit, List.append_assoc]; rfl)
        rw [hsplit, run_append, run_concat]
        apply mem_run_of_notMem (mem_turn_of_not_moves hturn _) hrest
        rintro ⟨hmoves', -⟩
        exact hnever a f (b ++ target f :: suf) (by rw [heq]; simp) hmoves' rfl
      have hvisible : visible f := ((hL f).mp (by rw [heq]; simp)).2
      refine hagain f hvisible ⟨hstill, hwants, ?_⟩
      rw [heq]
      exact hgone suf [] (by simp)
    · exact hself f hwants hsame.symm
    · -- a name after it would be given the target
      obtain ⟨a, b, rfl⟩ := List.append_of_mem hsuf
      have hsplit : L = (pre ++ target f :: a) ++ f :: b := by rw [heq]; simp
      exact hnever _ f b hsplit ⟨horiginal hsplit, hwants, hgone a (f :: b) rfl⟩ rfl

/-- **When a loop settles**: a name in the list that wants another one wants one that is
allowed, or one that stays. -/
theorem settled_iff (hsettles : ∀ f, ¬ wants (target (target f)))
    (hallowed : ∀ y, allowed y → ¬ wants y) :
    Settled wants target allowed visible S L ↔
      ∀ f ∈ L, wants f → allowed (target f) ∨ Stays wants target S L (target f) := by
  constructor
  · intro h f hf hwants
    by_cases hallow : allowed (target f)
    · exact .inl hallow
    · exact .inr (stays_of_settled hself hnodup hL h hf hwants hallow)
  · exact settled_of_stays hself hnodup hL hsettles hallowed

end Settled

end Renaming
end Dfuser
