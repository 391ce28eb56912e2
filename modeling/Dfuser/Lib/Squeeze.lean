import Dfuser.Lib.Joined
import Dfuser.Lib.Text

/-!
# Runs of separators

The fields of a text, put together again with one separator between them: the text, with
every run of separators squeezed into one and without those at its ends.

* `squeeze` — every run of separators as one.
* `squeeze_append_cons` — a text may be cut before a character that is no separator.
* `intercalate_fields` — **what splitting and joining makes of a text.**
* `squeeze_intercalate` — joined fields have no runs.
* `trSqueeze` — of every run of one character only one is kept.
-/

namespace Dfuser

open Dfuser.Joined (intercalate_cons_eq spell_cons)

variable {p : Char → Bool} {b : Char}

/-- Every run of separators as one `b`; the flag says that one has just been passed. -/
def squeeze (p : Char → Bool) (b : Char) : Bool → Str → Str
  | _, [] => []
  | after, c :: s =>
    if p c then if after then squeeze p b true s else b :: squeeze p b true s
    else c :: squeeze p b false s

@[simp] theorem squeeze_nil (after : Bool) : squeeze p b after [] = [] := rfl

theorem squeeze_cons_of_neg {c : Char} (hc : p c = false) (after : Bool) (s : Str) :
    squeeze p b after (c :: s) = c :: squeeze p b false s := by
  rw [squeeze, hc, if_neg Bool.false_ne_true]

theorem squeeze_append_cons {x : Char} (hx : p x = false) (after : Bool) (s t : Str) :
    squeeze p b after (s ++ x :: t) = squeeze p b after s ++ x :: squeeze p b false t := by
  induction s generalizing after with
  | nil => exact squeeze_cons_of_neg hx after t
  | cons c s ih =>
    rw [List.cons_append, squeeze, squeeze]
    split
    · split
      · exact ih true
      · rw [ih, List.cons_append]
    · rw [ih, List.cons_append]

theorem squeeze_of_forall {s : Str} (h : ∀ c ∈ s, p c = false) (after : Bool) :
    squeeze p b after s = s := by
  induction s generalizing after with
  | nil => rfl
  | cons c s ih =>
    rw [List.forall_mem_cons] at h
    rw [squeeze_cons_of_neg h.1, ih h.2]

/-- A text that ends in no separator has a field. -/
theorem fields_ne_nil_of_getLast? {s : Str} (hne : s ≠ []) (hlast : ∀ c ∈ s.getLast?, p c = false) :
    fields p s ≠ [] := by
  intro hnil
  rw [fields_eq_nil_iff] at hnil
  have hp := hnil _ (List.getLast_mem hne)
  rw [hlast _ (List.getLast?_eq_some_getLast hne)] at hp
  cases hp

/-- **Splitting a text and joining its fields** squeezes the runs of separators in it, for
a text that ends in no separator. -/
theorem intercalate_fields {s : Str} (hne : s ≠ []) (hlast : ∀ c ∈ s.getLast?, p c = false) :
    [b].intercalate (fields p s) = squeeze p b true s := by
  -- the same with the start of a field before the text
  suffices h : ∀ s : Str, (∀ c ∈ s.getLast?, p c = false) →
      (s ≠ [] → [b].intercalate (fields p s) = squeeze p b true s) ∧
        ∀ w, w ≠ [] → (∀ c ∈ w, p c = false) →
          [b].intercalate (fields p (w ++ s)) = w ++ squeeze p b false s by
    exact (h s hlast).1 hne
  intro s hlast
  induction s with
  | nil =>
    refine ⟨fun h => absurd rfl h, ?_⟩
    intro w hw hword
    rw [List.append_nil, fields_eq_singleton hw hword, List.intercalate_singleton, squeeze_nil,
      List.append_nil]
  | cons c s ih =>
    have hlast' : ∀ d ∈ s.getLast?, p d = false := by
      intro d hd
      apply hlast d
      rw [List.getLast?_cons, Option.mem_def.mp hd]
      rfl
    obtain ⟨ih₁, ih₂⟩ := ih hlast'
    by_cases hc : p c = true
    · have hs : s ≠ [] := by
        rintro rfl
        have := hlast c (by simp)
        rw [hc] at this
        cases this
      constructor
      · intro _
        have hfields : fields p (c :: s) = fields p s := fields_append_cons hc [] s
        rw [hfields, ih₁ hs, squeeze, if_pos hc, if_pos rfl]
      · intro w hw hword
        obtain ⟨v, vs, hvs⟩ :=
          List.exists_cons_of_ne_nil (fields_ne_nil_of_getLast? hs hlast')
        have hrest := ih₁ hs
        rw [hvs] at hrest
        rw [fields_append_cons hc, fields_eq_singleton hw hword, hvs, List.singleton_append,
          List.intercalate_cons_cons, hrest, squeeze, if_pos hc, if_neg Bool.false_ne_true,
          List.append_assoc, List.singleton_append]
    · rw [Bool.not_eq_true] at hc
      constructor
      · intro _
        have hstart := ih₂ [c] (by simp) (by simpa using hc)
        rw [squeeze_cons_of_neg hc]
        exact hstart
      · intro w hw hword
        have hlonger := ih₂ (w ++ [c]) (by simp) (by
          intro d hd
          rcases List.mem_append.mp hd with hd | hd
          · exact hword d hd
          · rw [List.mem_singleton.mp hd, hc])
        rw [squeeze_cons_of_neg hc]
        simpa using hlonger

/-- A field passes unchanged, and ends a run. -/
theorem squeeze_append_of_forall {w : Str} (hne : w ≠ []) (hw : ∀ c ∈ w, p c = false) (after : Bool)
    (s : Str) : squeeze p b after (w ++ s) = w ++ squeeze p b false s := by
  induction w generalizing after with
  | nil => exact absurd rfl hne
  | cons c w ih =>
    rw [List.forall_mem_cons] at hw
    rw [List.cons_append, squeeze_cons_of_neg hw.1]
    by_cases hnil : w = []
    · rw [hnil]
      rfl
    · rw [ih hnil hw.2]
      rfl

theorem squeeze_spell (hb : p b = true) {ws : List Str}
    (h : ∀ w ∈ ws, w ≠ [] ∧ ∀ c ∈ w, p c = false) :
    squeeze p b false (Joined.spell b ws) = Joined.spell b ws := by
  induction ws with
  | nil => rfl
  | cons w ws ih =>
    rw [List.forall_mem_cons] at h
    rw [spell_cons, squeeze, if_pos hb, if_neg Bool.false_ne_true,
      squeeze_append_of_forall h.1.1 h.1.2, ih h.2]

/-- Joined fields have no runs of separators. -/
theorem squeeze_intercalate (hb : p b = true) {ws : List Str}
    (h : ∀ w ∈ ws, w ≠ [] ∧ ∀ c ∈ w, p c = false) :
    squeeze p b false ([b].intercalate ws) = [b].intercalate ws := by
  cases ws with
  | nil => rfl
  | cons w ws =>
    rw [List.forall_mem_cons] at h
    rw [intercalate_cons_eq, squeeze_append_of_forall h.1.1 h.1.2, squeeze_spell hb h.2]

/-! ### Runs of one character -/

/-- `tr -s`: of a run of a character that `p` holds of, one is kept. -/
def trSqueeze (p : Char → Bool) : Str → Str
  | [] => []
  | c :: s => if s.head? = some c ∧ p c then trSqueeze p s else c :: trSqueeze p s

theorem trSqueeze_sublist (p : Char → Bool) (s : Str) : (trSqueeze p s).Sublist s := by
  induction s with
  | nil => exact List.Sublist.refl _
  | cons c s ih =>
    rw [trSqueeze]
    split
    · exact ih.cons c
    · exact ih.cons_cons c

theorem trSqueeze_of_forall {s : Str} (h : ∀ c ∈ s, p c = false) : trSqueeze p s = s := by
  induction s with
  | nil => rfl
  | cons c s ih =>
    rw [List.forall_mem_cons] at h
    rw [trSqueeze, if_neg (by simp [h.1]), ih h.2]

theorem head?_trSqueeze (s : Str) : (trSqueeze p s).head? = s.head? := by
  induction s with
  | nil => rfl
  | cons c s ih =>
    rw [trSqueeze]
    split
    · next h => rw [ih, h.1, List.head?_cons]
    · rfl

theorem trSqueeze_trSqueeze (s : Str) : trSqueeze p (trSqueeze p s) = trSqueeze p s := by
  induction s with
  | nil => rfl
  | cons c s ih =>
    rw [trSqueeze]
    split
    · exact ih
    · next h => rw [trSqueeze, head?_trSqueeze, if_neg h, ih]

/-- What is left of a text without runs has none. -/
theorem trSqueeze_of_cons {c : Char} {s : Str} (h : trSqueeze p (c :: s) = c :: s) :
    trSqueeze p s = s ∧ ¬ (s.head? = some c ∧ p c = true) := by
  rw [trSqueeze] at h
  split at h
  · have hlength := (trSqueeze_sublist p s).length_le
    rw [h, List.length_cons] at hlength
    omega
  · next hnot => exact ⟨(List.cons.inj h).2, hnot⟩

end Dfuser
