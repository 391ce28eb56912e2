import Mathlib.Data.List.Induction
import Dfuser.Lib.FileSystem

/-!
# Trees of directories and files

A tree of directories and files without links: what is at a path needs no walk.  What
holds something is a directory, which is part of the type.

## Main definitions

* `DirTree.add`, `DirTree.write` — a new entry, and a new content of a file.
* `DirTree.makeDirs` — the directories along a path, those that are missing created.

## Main results

* `DirTree.node_of_isPrefix` — what is above something is a directory.
* `DirTree.node_add`, `DirTree.node_write` — what the two change.
* `DirTree.makeDirs_ok` — **directories can be made along a path on which no file lies**.
* `DirTree.makeDirs_keeps` — what was there before stays, also when this fails.
-/

namespace Dfuser

/-- What can be at a path. -/
inductive Node (κ : Type*)
  | file (content : κ)
  | dir

/-- A tree of directories and files. -/
structure DirTree (κ : Type*) where
  node : Path → Option (Node κ)
  root : node [] = some .dir
  parents : ∀ p n, node (p ++ [n]) ≠ none → node p = some .dir

namespace DirTree

variable {κ : Type*}

/-- There is a file at the path. -/
def IsFileAt (t : DirTree κ) (p : Path) : Prop := ∃ c, t.node p = some (.file c)

/-- **What is above something is a directory.** -/
theorem node_of_isPrefix (t : DirTree κ) {p q : Path} (hpre : p <+: q) (hne : p ≠ q)
    (hq : t.node q ≠ none) : t.node p = some .dir := by
  obtain ⟨r, rfl⟩ := hpre
  induction r using List.reverseRecOn with
  | nil => exact absurd (List.append_nil p).symm hne
  | append_singleton r n ih =>
    rw [← List.append_assoc] at hq
    have hparent := t.parents _ n hq
    by_cases hr : r = []
    · rw [hr, List.append_nil] at hparent
      exact hparent
    · apply ih
      · intro h
        exact hr (List.append_right_eq_self.mp h.symm)
      · rw [hparent]
        exact Option.some_ne_none _

/-- A directory with nothing in it. -/
def empty : DirTree κ where
  node p := if p = [] then some .dir else none
  root := rfl
  parents _ _ h := absurd (if_neg (by simp)) h

theorem node_empty (p : Path) : (empty : DirTree κ).node p = if p = [] then some .dir else none :=
  rfl

/-! ### What is at a path -/

/-- There is a directory at the path. -/
def isDirAt (t : DirTree κ) (p : Path) : Bool :=
  match t.node p with
  | some .dir => true
  | _ => false

theorem isDirAt_iff {t : DirTree κ} {p : Path} : t.isDirAt p = true ↔ t.node p = some .dir := by
  unfold isDirAt
  cases t.node p with
  | none => simp
  | some o => cases o <;> simp

/-! ### Changes -/

/-- A new entry `n` of the directory `d`.  Nothing happens when the name is taken. -/
def add (t : DirTree κ) (d : Path) (n : Str) (o : Node κ) : DirTree κ :=
  if h : t.isDirAt d = true ∧ (t.node (d ++ [n])).isNone = true then
    { node := fun q => if q = d ++ [n] then some o else t.node q
      root := by
        have hne : ([] : Path) ≠ d ++ [n] := by simp
        rw [if_neg hne, t.root]
      parents := by
        intro p m hm
        have hfree : t.node (d ++ [n]) = none := Option.isNone_iff_eq_none.mp h.2
        by_cases hpm : p ++ [m] = d ++ [n]
        · -- the directory the entry is put in
          obtain ⟨rfl, -⟩ := List.append_inj' hpm rfl
          have hne : p ≠ p ++ [n] := by simp
          rw [if_neg hne, isDirAt_iff.mp h.1]
        · rw [if_neg hpm] at hm
          have hp := t.parents p m hm
          have hne : p ≠ d ++ [n] := by
            rintro rfl
            rw [hfree] at hp
            cases hp
          rw [if_neg hne, hp] }
  else t

theorem node_add {t : DirTree κ} {d : Path} {n : Str} (hd : t.node d = some .dir)
    (hfree : t.node (d ++ [n]) = none) (o : Node κ) (q : Path) :
    (t.add d n o).node q = if q = d ++ [n] then some o else t.node q := by
  unfold add
  rw [dif_pos ⟨isDirAt_iff.mpr hd, Option.isNone_iff_eq_none.mpr hfree⟩]

/-- A new content of the file at `p`.  Nothing happens when there is none. -/
def write (t : DirTree κ) (p : Path) (c : κ) : DirTree κ where
  node q := if q = p then (t.node q).map fun o =>
      match o with
      | .file _ => .file c
      | .dir => .dir
    else t.node q
  root := by
    split
    · rw [t.root]
      rfl
    · exact t.root
  parents := by
    intro q m hm
    have hdir : t.node q = some .dir := by
      apply t.parents q m
      split at hm
      · exact fun hnone => hm (by rw [hnone]; rfl)
      · exact hm
    split
    · rw [hdir]
      rfl
    · exact hdir

theorem node_write (t : DirTree κ) {p : Path} (hp : t.IsFileAt p) (c : κ) (q : Path) :
    (t.write p c).node q = if q = p then some (.file c) else t.node q := by
  obtain ⟨c', hc⟩ := hp
  by_cases hq : q = p
  · rw [if_pos hq, hq]
    simp only [write, if_true, hc, Option.map_some]
  · rw [if_neg hq]
    exact if_neg hq

/-! ### Making directories -/

/-- Make the directories along a path below `cur`.  Where this fails, the tree is left with
the directories made so far. -/
def makeDirs : DirTree κ → Path → Path → Except (DirTree κ) (DirTree κ)
  | t, _, [] => .ok t
  | t, cur, n :: ns =>
    match t.node (cur ++ [n]) with
    | some .dir => makeDirs t (cur ++ [n]) ns
    | some (.file _) => .error t
    | none => makeDirs (t.add cur n .dir) (cur ++ [n]) ns

/-- The tree after an action, whether it failed or not. -/
def outcome : Except (DirTree κ) (DirTree κ) → DirTree κ
  | .ok t => t
  | .error t => t

/-- What is there stays as it is. -/
def Keeps (t t' : DirTree κ) : Prop := ∀ q, t.node q ≠ none → t'.node q = t.node q

theorem Keeps.refl (t : DirTree κ) : Keeps t t := fun _ _ => rfl

theorem Keeps.trans {t t' t'' : DirTree κ} (h : Keeps t t') (h' : Keeps t' t'') : Keeps t t'' := by
  intro q hq
  have hq' := h q hq
  rw [h' q (by rwa [hq']), hq']

theorem keeps_add (t : DirTree κ) (d : Path) (n : Str) (o : Node κ) : Keeps t (t.add d n o) := by
  intro q hq
  unfold add
  split
  · next h =>
    have hne : q ≠ d ++ [n] := by
      rintro rfl
      exact hq (Option.isNone_iff_eq_none.mp h.2)
    exact if_neg hne
  · rfl

theorem makeDirs_keeps (t : DirTree κ) (cur ns : Path) : Keeps t (outcome (makeDirs t cur ns)) := by
  induction ns generalizing t cur with
  | nil => exact Keeps.refl t
  | cons n ns ih =>
    unfold makeDirs
    split
    · exact ih t (cur ++ [n])
    · exact Keeps.refl t
    · exact (keeps_add t cur n .dir).trans (ih _ (cur ++ [n]))

/-- **Directories can be made along a path on which no file lies**, and nothing else is
made. -/
theorem makeDirs_ok {t : DirTree κ} {cur : Path} (hcur : t.node cur = some .dir) {ns : Path}
    (hfree : ∀ r, r <+: ns → ¬ t.IsFileAt (cur ++ r)) :
    ∃ t', makeDirs t cur ns = .ok t' ∧ t'.node (cur ++ ns) = some .dir ∧
      ∀ q, t'.node q = t.node q ∨
        (t.node q = none ∧ t'.node q = some .dir ∧ ∃ r, r <+: ns ∧ q = cur ++ r) := by
  induction ns generalizing t cur with
  | nil =>
    refine ⟨t, rfl, ?_, fun q => .inl rfl⟩
    rw [List.append_nil, hcur]
  | cons n ns ih =>
    have hnext : ∀ r, r <+: ns → n :: r <+: n :: ns :=
      fun r hr => List.cons_prefix_cons.mpr ⟨rfl, hr⟩
    unfold makeDirs
    split
    · next hdir =>
      obtain ⟨t', hok, hend, hnode⟩ := ih hdir (by
        intro r hr
        rw [List.append_assoc]
        exact hfree _ (hnext r hr))
      refine ⟨t', hok, ?_, ?_⟩
      · rw [← hend, List.append_assoc]
        rfl
      · intro q
        rcases hnode q with hsame | ⟨hnone, hdir', r, hr, rfl⟩
        · exact .inl hsame
        · refine .inr ⟨hnone, hdir', n :: r, hnext r hr, ?_⟩
          rw [List.append_assoc]
          rfl
    · next c hfile => exact absurd ⟨c, hfile⟩ (hfree [n] (hnext [] List.nil_prefix))
    · next hnone =>
      have hadd := node_add hcur hnone .dir
      have hmade : (t.add cur n .dir).node (cur ++ [n]) = some .dir := by
        rw [hadd, if_pos rfl]
      have hrest : ∀ r, r <+: ns → ¬ (t.add cur n .dir).IsFileAt (cur ++ [n] ++ r) := by
        rintro r hr ⟨c, hc⟩
        rw [hadd] at hc
        split at hc
        · cases hc
        · rw [List.append_assoc] at hc
          exact hfree _ (hnext r hr) ⟨c, hc⟩
      obtain ⟨t', hok, hend, hnode⟩ := ih hmade hrest
      refine ⟨t', hok, ?_, ?_⟩
      · rw [← hend, List.append_assoc]
        rfl
      · intro q
        by_cases hq : q = cur ++ [n]
        · subst hq
          refine .inr ⟨hnone, ?_, [n], hnext [] List.nil_prefix, rfl⟩
          rcases hnode (cur ++ [n]) with hsame | ⟨-, hdir, -⟩
          · rw [hsame, hadd, if_pos rfl]
          · exact hdir
        · rcases hnode q with hsame | ⟨hnone', hdir', r, hr, rfl⟩
          · rw [hadd, if_neg hq] at hsame
            exact .inl hsame
          · rw [hadd, if_neg hq] at hnone'
            refine .inr ⟨hnone', hdir', n :: r, hnext r hr, ?_⟩
            rw [List.append_assoc]
            rfl

end DirTree
end Dfuser
