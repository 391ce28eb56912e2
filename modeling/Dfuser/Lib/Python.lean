import Mathlib.Data.Rat.Floor
import Dfuser.Lib.Text

/-!
# Numbers, indices and paths of Python

* `pyInt` — `int` of a number, which drops the fraction; it keeps the order.
* `pyIndex` — indexing a list, from either end.
* `osJoin`, `osBasename` — a path and a name put together, and the name again.
-/

namespace Dfuser

/-- `int(x)`: the fraction of `x` is dropped. -/
def pyInt (x : ℚ) : ℤ := if 0 ≤ x then ⌊x⌋ else ⌈x⌉

theorem pyInt_of_nonneg {x : ℚ} (h : 0 ≤ x) : pyInt x = ⌊x⌋ := if_pos h

@[simp] theorem pyInt_intCast (n : ℤ) : pyInt n = n := by
  unfold pyInt
  split
  · exact Int.floor_intCast n
  · exact Int.ceil_intCast n

theorem pyInt_le_pyInt {x y : ℚ} (hxy : x ≤ y) : pyInt x ≤ pyInt y := by
  by_cases hx : 0 ≤ x
  · rw [pyInt_of_nonneg hx, pyInt_of_nonneg (hx.trans hxy)]
    exact Int.floor_mono hxy
  · have hceil : pyInt x = ⌈x⌉ := if_neg hx
    rw [hceil]
    by_cases hy : 0 ≤ y
    · rw [pyInt_of_nonneg hy]
      exact (Int.ceil_nonpos.mpr (le_of_not_ge hx)).trans (Int.floor_nonneg.mpr hy)
    · rw [pyInt, if_neg hy]
      exact Int.ceil_mono hxy

/-- `l[i]`, with negative indices counted from the end; `none` for an `IndexError`. -/
def pyIndex {α : Type*} (l : List α) (i : ℤ) : Option α :=
  if 0 ≤ i then l[i.toNat]?
  else if -(l.length : ℤ) ≤ i then l[(l.length + i).toNat]?
  else none

theorem pyIndex_isSome_iff {α : Type*} {l : List α} {i : ℤ} :
    (pyIndex l i).isSome = true ↔ -(l.length : ℤ) ≤ i ∧ i < l.length := by
  unfold pyIndex
  split
  · rw [isSome_getElem?]
    omega
  · split
    · rw [isSome_getElem?]
      omega
    · simp only [Option.isSome_none, Bool.false_eq_true, false_iff]
      omega

/-- `os.path.join(directory, name)`, for a name that is not absolute. -/
def osJoin (directory name : Str) : Str :=
  if directory = [] ∨ directory.getLast? = some '/' then directory ++ name
  else directory ++ '/' :: name

/-- `os.path.basename`: what comes after the last slash. -/
def osBasename (path : Str) : Str := (path.reverse.takeWhile (· ≠ '/')).reverse

/-- What a name is taken from has no slash behind its last one. -/
theorem takeWhile_reverse_of_notMem {name : Str} (h : '/' ∉ name) (rest : Str) :
    (name.reverse ++ rest).takeWhile (· ≠ '/') = name.reverse ++ rest.takeWhile (· ≠ '/') := by
  apply List.takeWhile_append_of_pos
  intro c hc
  rw [decide_eq_true_eq]
  rintro rfl
  exact h (List.mem_reverse.mp hc)

theorem osBasename_of_notMem {name : Str} (h : '/' ∉ name) : osBasename name = name := by
  have hwhile := takeWhile_reverse_of_notMem h []
  rw [List.append_nil, List.takeWhile_nil, List.append_nil] at hwhile
  rw [osBasename, hwhile, List.reverse_reverse]

theorem osBasename_append_cons {name : Str} (h : '/' ∉ name) (directory : Str) :
    osBasename (directory ++ '/' :: name) = name := by
  have hreverse : (directory ++ '/' :: name).reverse =
      name.reverse ++ '/' :: directory.reverse := by
    simp
  rw [osBasename, hreverse, takeWhile_reverse_of_notMem h]
  simp

theorem osBasename_osJoin {name : Str} (h : '/' ∉ name) (directory : Str) :
    osBasename (osJoin directory name) = name := by
  unfold osJoin
  split
  · next hend =>
    rcases hend with rfl | hslash
    · exact osBasename_of_notMem h
    · obtain ⟨d, rfl⟩ := List.getLast?_eq_some_iff.mp hslash
      rw [List.append_assoc]
      exact osBasename_append_cons h d
  · exact osBasename_append_cons h directory

end Dfuser
