import Mathlib.Data.List.Basic
import Mathlib.Data.List.Nodup

/-!
# Text

The scripts of this development are about text, and their text is a list of
characters.  What they do to it most is cut it into fields at separators: a
shell splits an expansion at blanks, `str.split` a line at white space.

* `Str` — text.
* `fields p s` — the maximal non-empty runs of `s` without a character of `p`.
* `fields_eq_singleton`, `fields_append_cons` — text without separators is one field,
  and a separator ends a field.
* `mem_fields`, `fields_eq_nil_iff` — what a field is, and which text has none.
* `runs_induction` — a text by its first separator.
* `fields_map`, `fields_eq_flatMap_splitOnP` — other separators, and more of them.
-/

namespace Dfuser

/-- Text: a list of characters. -/
abbrev Str := List Char

instance : LawfulBEq Str := inferInstance

/-- Letters and digits are ASCII characters. -/
theorem range_of_isAlphanum {c : Char} (h : c.isAlphanum = true) :
    48 ≤ c.toNat ∧ c.toNat ≤ 122 := by
  delta Char.isAlphanum Char.isAlpha Char.isUpper Char.isLower Char.isDigit at h
  simp only [Bool.or_eq_true, Bool.and_eq_true, decide_eq_true_eq, UInt32.le_iff_toNat_le,
    ge_iff_le] at h
  have hcode : c.toNat = c.val.toNat := rfl
  have hzero : '0'.val.toNat = 48 := rfl
  have hnine : '9'.val.toNat = 57 := rfl
  have hupper : 'A'.val.toNat = 65 ∧ 'Z'.val.toNat = 90 := ⟨rfl, rfl⟩
  have hlower : 'a'.val.toNat = 97 ∧ 'z'.val.toNat = 122 := ⟨rfl, rfl⟩
  omega

/-- The fields of `s` between separators: its maximal non-empty runs of
characters that are not separators. -/
def fields (p : Char → Bool) (s : Str) : List Str := (s.splitOnP p).filter (· ≠ [])

@[simp] theorem fields_nil (p : Char → Bool) : fields p [] = [] := by
  simp [fields]

theorem fields_eq_singleton {p : Char → Bool} {s : Str} (hne : s ≠ [])
    (h : ∀ c ∈ s, p c = false) : fields p s = [s] := by
  rw [fields, List.splitOnP_eq_singleton h]
  simp [hne]

/-- A separator ends a field. -/
theorem fields_append_cons {p : Char → Bool} {c : Char} (hc : p c = true) (s t : Str) :
    fields p (s ++ c :: t) = fields p s ++ fields p t := by
  rw [fields, List.splitOnP_append_cons s t hc, List.filter_append]
  rfl

/-- The pieces of a text have no separator in them. -/
theorem of_mem_splitOnP {p : Char → Bool} {s w : Str} (hw : w ∈ s.splitOnP p) :
    ∀ c ∈ w, p c = false := by
  induction s generalizing w with
  | nil =>
    intro c hc
    rw [List.splitOnP_nil, List.mem_singleton] at hw
    rw [hw] at hc
    cases hc
  | cons a s ih =>
    intro c hc
    rw [List.splitOnP_cons_eq_if_modifyHead] at hw
    split at hw
    · rcases List.mem_cons.mp hw with rfl | hw
      · cases hc
      · exact ih hw c hc
    · next ha =>
      obtain ⟨v, vs, hv⟩ := List.exists_cons_of_ne_nil (List.splitOnP_ne_nil p s)
      rw [hv] at ih
      rw [hv, List.modifyHead_cons] at hw
      rcases List.mem_cons.mp hw with rfl | hw
      · rcases List.mem_cons.mp hc with rfl | hc
        · simpa using ha
        · exact ih List.mem_cons_self c hc
      · exact ih (List.mem_cons_of_mem v hw) c hc

/-- A field is not empty and has no separator in it. -/
theorem mem_fields {p : Char → Bool} {s w : Str} (h : w ∈ fields p s) :
    w ≠ [] ∧ ∀ c ∈ w, p c = false := by
  obtain ⟨hw, hne⟩ := List.mem_filter.mp h
  exact ⟨by simpa using hne, of_mem_splitOnP hw⟩

/-- The fields are all of the text but its separators. -/
theorem flatten_fields (p : Char → Bool) (s : Str) :
    (fields p s).flatten = s.filter fun c => !p c := by
  rw [fields, List.flatten_filter_ne_nil]
  induction s with
  | nil => rfl
  | cons c s ih =>
    rw [List.splitOnP_cons_eq_if_modifyHead]
    obtain ⟨w, ws, hws⟩ := List.exists_cons_of_ne_nil (List.splitOnP_ne_nil p s)
    rw [hws] at ih ⊢
    split
    · next hc =>
      rw [List.filter_cons_of_neg (by simp [hc]), ← ih]
      rfl
    · next hc =>
      rw [List.filter_cons_of_pos (by simpa using hc), ← ih]
      rfl

theorem exists_mem_fields {p : Char → Bool} {s : Str} {c : Char} (hc : c ∈ s) (hp : p c = false) :
    ∃ w ∈ fields p s, c ∈ w := by
  rw [← List.mem_flatten, flatten_fields, List.mem_filter]
  exact ⟨hc, by simp [hp]⟩

theorem mem_of_mem_fields {p : Char → Bool} {s w : Str} {c : Char} (hw : w ∈ fields p s)
    (hc : c ∈ w) : c ∈ s := by
  have hmem : c ∈ (fields p s).flatten := List.mem_flatten.mpr ⟨w, hw, hc⟩
  rw [flatten_fields] at hmem
  exact List.mem_of_mem_filter hmem

/-- The first field is the text up to the first separator. -/
theorem fields_takeWhile {p : Char → Bool} {s : Str} (h : s.takeWhile (fun c => !p c) ≠ []) :
    ∃ rest, fields p s = s.takeWhile (fun c => !p c) :: rest := by
  have hword : ∀ c ∈ s.takeWhile (fun c => !p c), p c = false := by
    intro c hc
    have hall := List.all_eq_true.mp (List.all_takeWhile (p := fun c => !p c) (l := s))
    simpa using hall c hc
  cases hd : s.dropWhile (fun c => !p c) with
  | nil =>
    have hs : s = s.takeWhile (fun c => !p c) := by
      have := List.takeWhile_append_dropWhile (p := fun c => !p c) (l := s)
      rwa [hd, List.append_nil, eq_comm] at this
    refine ⟨[], ?_⟩
    rw [← fields_eq_singleton h hword, ← hs]
  | cons c t =>
    have hc : p c = true := by
      have := List.head_dropWhile_not (fun c => !p c) (l := s) (by simp [hd])
      simpa [hd] using this
    have hs : s = s.takeWhile (fun c => !p c) ++ c :: t := by
      rw [← hd, List.takeWhile_append_dropWhile]
    refine ⟨fields p t, ?_⟩
    conv_lhs => rw [hs]
    rw [fields_append_cons hc, fields_eq_singleton h hword]
    rfl

/-- Only text made of separators has no field. -/
theorem fields_eq_nil_iff {p : Char → Bool} {s : Str} :
    fields p s = [] ↔ ∀ c ∈ s, p c = true := by
  induction s with
  | nil => simp
  | cons a s ih =>
    cases ha : p a with
    | true =>
      have hstep : fields p (a :: s) = fields p s := by
        have := fields_append_cons ha [] s
        simpa using this
      rw [hstep, ih]
      simp [ha]
    | false =>
      -- the text starts inside its first field
      have hfirst : (a :: s).takeWhile (fun c => !p c) ≠ [] := by simp [ha]
      obtain ⟨rest, hrest⟩ := fields_takeWhile hfirst
      rw [hrest]
      simp [ha]

/-! ### Texts cut in two ways -/

/-- The cases of a text by its separators: it has none, or there is a first one. -/
theorem runs_induction (p : Char → Bool) {motive : Str → Prop}
    (run : ∀ a, (∀ c ∈ a, p c = false) → motive a)
    (cut : ∀ a c t, (∀ d ∈ a, p d = false) → p c = true → motive t → motive (a ++ c :: t))
    (s : Str) : motive s := by
  suffices h : ∀ a, (∀ c ∈ a, p c = false) → motive (a ++ s) from h [] (by simp)
  induction s with
  | nil =>
    intro a ha
    rw [List.append_nil]
    exact run a ha
  | cons c s ih =>
    intro a ha
    cases hc : p c with
    | true => exact cut a c s ha hc (ih [] (by simp))
    | false =>
      rw [List.append_cons]
      apply ih
      intro d hd
      rcases List.mem_append.mp hd with hd | hd
      · exact ha d hd
      · rw [List.mem_singleton.mp hd, hc]

/-- Text without separators has itself for a field, unless it is empty. -/
theorem fields_of_forall {p : Char → Bool} {s : Str} (h : ∀ c ∈ s, p c = false) :
    fields p s = if s = [] then [] else [s] := by
  split
  · next hs => rw [hs, fields_nil]
  · next hs => exact fields_eq_singleton hs h

theorem fields_congr {p q : Char → Bool} {s : Str} (h : ∀ c ∈ s, p c = q c) :
    fields p s = fields q s := by
  induction s using runs_induction p with
  | run a ha => rw [fields_of_forall ha, fields_of_forall fun c hc => (h c hc).symm.trans (ha c hc)]
  | cut a c t ha hc ih =>
    have ha' : ∀ d ∈ a, q d = false := fun d hd => (h d (by simp [hd])).symm.trans (ha d hd)
    have hc' : q c = true := (h c (by simp)).symm.trans hc
    rw [fields_append_cons hc, fields_append_cons hc', fields_of_forall ha, fields_of_forall ha',
      ih fun d hd => h d (by simp [hd])]

/-- Separators that are replaced by others. -/
theorem fields_map {p q : Char → Bool} {f : Char → Char} (hf : ∀ c, p (f c) = q c)
    (hid : ∀ c, q c = false → f c = c) (s : Str) : fields p (s.map f) = fields q s := by
  have hrun : ∀ a : Str, (∀ c ∈ a, q c = false) → a.map f = a ∧ ∀ c ∈ a, p c = false := by
    intro a ha
    refine ⟨(List.map_congr_left fun c hc => hid c (ha c hc)).trans (List.map_id' a), ?_⟩
    intro c hc
    rw [← hid c (ha c hc), hf, ha c hc]
  induction s using runs_induction q with
  | run a ha => rw [(hrun a ha).1, fields_of_forall ha, fields_of_forall (hrun a ha).2]
  | cut a c t ha hc ih =>
    rw [List.map_append, List.map_cons, (hrun a ha).1, fields_append_cons (by rw [hf, hc]),
      fields_append_cons hc, fields_of_forall ha, fields_of_forall (hrun a ha).2, ih]

/-- A text may first be cut at some of its separators. -/
theorem fields_eq_flatMap_splitOnP {p r : Char → Bool} (h : ∀ c, r c = true → p c = true)
    (s : Str) : fields p s = (s.splitOnP r).flatMap (fields p) := by
  induction s using runs_induction r with
  | run a ha => rw [List.splitOnP_eq_singleton ha, List.flatMap_singleton]
  | cut a c t ha hc ih =>
    rw [List.splitOnP_append_cons_of_forall_mem ha c hc, List.flatMap_cons, ← ih,
      fields_append_cons (h c hc)]

theorem fields_eq_flatMap_fields {p r : Char → Bool} (h : ∀ c, r c = true → p c = true) (s : Str) :
    fields p s = (fields r s).flatMap (fields p) := by
  rw [fields_eq_flatMap_splitOnP h, fields]
  induction s.splitOnP r with
  | nil => rfl
  | cons w ws ih =>
    rw [List.flatMap_cons, ih]
    cases w with
    | nil => rfl
    | cons c w => rfl

/-- Letters at the start of a text are letters at the start of its first field. -/
theorem fields_of_prefix {p : Char → Bool} {a s : Str} (hne : a ≠ []) (ha : ∀ c ∈ a, p c = false)
    (h : a <+: s) : ∃ w rest, fields p s = w :: rest ∧ a <+: w := by
  obtain ⟨t, rfl⟩ := h
  have hpre : a <+: (a ++ t).takeWhile (fun c => !p c) := by
    rw [List.takeWhile_append_of_pos (by simpa using ha)]
    exact List.prefix_append _ _
  obtain ⟨rest, hrest⟩ := fields_takeWhile (p := p) (s := a ++ t)
    fun hnil => hne (List.prefix_nil.mp (hnil ▸ hpre))
  exact ⟨_, rest, hrest, hpre⟩

end Dfuser
