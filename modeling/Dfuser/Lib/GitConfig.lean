import Mathlib.Data.List.Infix
import Dfuser.Lib.Coreutils
import Dfuser.Lib.Dict

/-!
# Configuration files of Git

The subsections of one section, each with its variables.  `git config --get-regexp` lists
the variables whose full name has a match, and `git config --replace-all` sets one, in a
subsection that is created if there is none.

A script that sets one variable in many subsections leaves in each of them the value that it
has set there last.

## Main definitions

* `getRegexp`, `replaceAll` — the two commands.
* `replaceEach` — one variable set in many subsections.

## Main results

* `get?_replaceEach` — what is left in a subsection.
* `replaceEach_eq_iff`, `replaceEach_eq_self_iff` — **when that is what it should be, and
  when it is what was there.**
-/

namespace Dfuser
namespace GitConfig

/-- The variables of each subsection. -/
abbrev Config := Dict Str (Dict Str Str)

/-! ### The commands -/

/-- The full name of a variable. -/
def fullName (sectionName subsection key : Str) : Str :=
  sectionName ++ '.' :: (subsection ++ '.' :: key)

/-- The lines that `git config --get-regexp` prints, for an expression without special
characters. -/
def getRegexp (sectionName expr : Str) (C : Config) : List Str :=
  C.entries.flatMap fun sub =>
    (sub.2.entries.filter fun v => expr <:+: fullName sectionName sub.1 v.1).map fun v =>
      fullName sectionName sub.1 v.1 ++ ' ' :: v.2

/-- The section, the subsection and the key of a full name: what is in front of the first
dot, between it and the last one, and behind that. -/
def splitName (name : Str) : Option (Str × Str × Str) :=
  match name.splitOn '.' with
  | sectionName :: rest =>
    if 2 ≤ rest.length then
      some (sectionName, ['.'].intercalate rest.dropLast, rest.getLastD [])
    else none
  | [] => none

/-- `git config --replace-all` -/
def replaceAll (C : Config) (subsection key value : Str) : Config :=
  C.set subsection (((C.get? subsection).getD Dict.empty).set key value)

/-- The value of a variable. -/
def value? (C : Config) (subsection key : Str) : Option Str := (C.get? subsection).bind (·.get? key)

theorem splitName_fullName {sectionName key : Str} (hsection : '.' ∉ sectionName) (hkey : '.' ∉ key)
    (subsection : Str) :
    splitName (fullName sectionName subsection key) = some (sectionName, subsection, key) := by
  have hsplit : (fullName sectionName subsection key).splitOn '.' =
      sectionName :: (subsection.splitOn '.' ++ [key]) := by
    rw [fullName, List.splitOn_append_cons_self, List.splitOn_append_cons_self,
      List.splitOn_eq_singleton hsection, List.splitOn_eq_singleton hkey]
    rfl
  have hpos := List.length_pos_of_ne_nil (List.splitOn_ne_nil '.' subsection)
  rw [splitName, hsplit]
  dsimp only
  rw [if_pos (by rw [List.length_append, List.length_singleton]; omega), List.dropLast_concat,
    List.getLastD_concat, List.intercalate_splitOn]

theorem get?_replaceAll (C : Config) (subsection key value s : Str) :
    (replaceAll C subsection key value).get? s =
      if s = subsection then some (((C.get? s).getD Dict.empty).set key value) else C.get? s := by
  rw [replaceAll, Dict.get?_set]
  split
  · next hs => rw [hs]
  · rfl

/-! ### One variable in many subsections -/

section Each

variable {γ : Type*} (subsection value : γ → Str) (key : Str)

/-- One variable is set for each element of a list. -/
def replaceEach (l : List γ) (C : Config) : Config :=
  l.foldl (fun C e => replaceAll C (subsection e) key (value e)) C

/-- The last element that goes to a subsection. -/
def lastTo (l : List γ) (s : Str) : Option γ := (l.filter fun e => subsection e = s).getLast?

theorem lastTo_isSome_iff (l : List γ) (s : Str) :
    (lastTo subsection l s).isSome = true ↔ ∃ e ∈ l, subsection e = s := by
  rw [lastTo, List.getLast?_isSome, Ne, List.filter_eq_nil_iff]
  simp

/-- **What is left in a subsection**: the value that was set there last. -/
theorem get?_replaceEach (l : List γ) (C : Config) (s : Str) :
    (replaceEach subsection value key l C).get? s =
      ((lastTo subsection l s).map fun e =>
        ((C.get? s).getD Dict.empty).set key (value e)).or (C.get? s) := by
  induction l generalizing C with
  | nil => rfl
  | cons e l ih =>
    have hstep : replaceEach subsection value key (e :: l) C =
        replaceEach subsection value key l (replaceAll C (subsection e) key (value e)) := rfl
    rw [hstep, ih, get?_replaceAll]
    by_cases hs : subsection e = s
    · have hfilter : lastTo subsection (e :: l) s = some ((lastTo subsection l s).getD e) := by
        rw [lastTo, List.filter_cons_of_pos (by simpa using hs), List.getLast?_cons]
        rfl
      rw [hfilter, if_pos hs.symm]
      cases lastTo subsection l s with
      | none => rfl
      | some e' =>
        -- of two values set in one subsection the second one counts
        simp [Dict.set_set]
    · have hfilter : lastTo subsection (e :: l) s = lastTo subsection l s := by
        rw [lastTo, List.filter_cons_of_neg (by simpa using hs)]
        rfl
      rw [hfilter, if_neg fun h => hs h.symm]

theorem keys_replaceEach {l : List γ} {C : Config} (h : ∀ e ∈ l, subsection e ∈ C.keys) :
    (replaceEach subsection value key l C).keys = C.keys := by
  induction l generalizing C with
  | nil => rfl
  | cons e l ih =>
    rw [List.forall_mem_cons] at h
    have hkeys : (replaceAll C (subsection e) key (value e)).keys = C.keys :=
      Dict.keys_set_of_mem h.1 _
    have hstep : replaceEach subsection value key (e :: l) C =
        replaceEach subsection value key l (replaceAll C (subsection e) key (value e)) := rfl
    rw [hstep, ih (fun e' he' => by rw [hkeys]; exact h.2 e' he'), hkeys]

/-- With no subsection created, it is enough to look at each of them. -/
theorem replaceEach_eq_iff {l : List γ} {C D : Config} (hkeys : D.keys = C.keys) :
    replaceEach subsection value key l C = D ↔
      ∀ s, (replaceEach subsection value key l C).get? s = D.get? s := by
  constructor
  · rintro rfl s
    rfl
  · intro h
    apply Dict.eq_of_keys _ h
    rw [hkeys]
    apply keys_replaceEach
    intro e he
    obtain ⟨e', he'⟩ :=
      Option.isSome_iff_exists.mp ((lastTo_isSome_iff subsection l _).mpr ⟨e, he, rfl⟩)
    have hget := h (subsection e)
    rw [get?_replaceEach, he'] at hget
    rw [← hkeys]
    exact (Dict.mem_keys_iff _ _).mpr ⟨_, hget.symm⟩

/-- **When nothing changes**: the value that is set last is there already. -/
theorem replaceEach_eq_self_iff {l : List γ} {C : Config} :
    replaceEach subsection value key l C = C ↔
      ∀ s, ∀ e ∈ lastTo subsection l s, value? C s key = some (value e) := by
  rw [replaceEach_eq_iff subsection value key rfl]
  refine forall_congr' fun s => ?_
  rw [get?_replaceEach]
  cases lastTo subsection l s with
  | none => simp
  | some e =>
    simp only [Option.map_some, Option.some_or, Option.mem_def, Option.some.injEq, forall_eq']
    constructor
    · intro h
      rw [value?, ← h, Option.bind_some, Dict.get?_set_self]
    · intro h
      obtain ⟨vars, hvars, hvalue⟩ := Option.bind_eq_some_iff.mp h
      rw [hvars, Option.getD_some, Dict.set_eq_self hvalue]

end Each

end GitConfig
end Dfuser
