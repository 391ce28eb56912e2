import Dfuser.Lib.Base64

/-!
# Text files

A file is a list of bytes.  A text file that is read is decoded from UTF-8 and every end
of line becomes a newline; a text that is written is encoded, from the position of the
file on.  Nothing truncates the file behind the last byte that is written.

## Main definitions

* `decode?` — the text of bytes, when they are the encoding of one.
* `universalNewlines` — the ends of lines, in the three conventions, as newlines.
* `overwrite` — writing at the start of a file.
* `strFind` — the first place of a text in another one.

## Main results

* `decode?_eq_some_iff` — decoding inverts `utf8`.
* `isPrefix_of_utf8` — a text is told by its bytes, also when more bytes follow.
* `universalNewlines_append` — a cut that tears no end of line apart.
* `overwrite_eq_self_iff` — when writing changes nothing.
-/

namespace Dfuser

/-! ### Bytes -/

@[simp] theorem utf8_nil : utf8 [] = [] := rfl

theorem utf8_append (s t : Str) : utf8 (s ++ t) = utf8 s ++ utf8 t := List.flatMap_append

theorem utf8Encode_eq (s : Str) : s.utf8Encode = (utf8 s).toByteArray := rfl

theorem toByteArray_toList (b : List UInt8) : b.toByteArray.data.toList = b := by
  simp

/-- The text with these bytes, if there is one. -/
def decode? (b : List UInt8) : Option Str := b.toByteArray.utf8Decode?.map Array.toList

theorem decode?_utf8 (s : Str) : decode? (utf8 s) = some s := by
  rw [decode?, ← utf8Encode_eq, List.utf8Decode?_utf8Encode]
  rfl

theorem decode?_eq_some_iff {b : List UInt8} {s : Str} : decode? b = some s ↔ utf8 s = b := by
  constructor
  · intro h
    obtain ⟨a, ha, rfl⟩ := Option.map_eq_some_iff.mp h
    have hencode : a.toList.utf8Encode = b.toByteArray := by
      have hsome : b.toByteArray.utf8Decode?.isSome = true := by
        rw [ha]
        rfl
      obtain rfl : b.toByteArray.utf8Decode?.get hsome = a := by simp [ha]
      exact ByteArray.utf8Encode_get_utf8Decode?
    rw [← toByteArray_toList (utf8 a.toList), ← utf8Encode_eq, hencode, toByteArray_toList]
  · rintro rfl
    exact decode?_utf8 s

/-- The characters at the start of a text are told by its first bytes. -/
theorem isPrefix_of_utf8 {s t : Str} (h : utf8 s <+: utf8 t) : s <+: t := by
  obtain ⟨b, hb⟩ := h
  apply List.isPrefix_of_utf8Encode_append_eq_utf8Encode b.toByteArray
  rw [utf8Encode_eq, utf8Encode_eq, ← hb, List.toByteArray_append]

/-! ### Ends of lines -/

/-- The text with every end of line as a newline.  The flag says that the character before
was `\r`, which has been read as a newline already. -/
def newlinesFrom : Bool → Str → Str
  | _, [] => []
  | afterCr, c :: s =>
    if c = '\r' then '\n' :: newlinesFrom true s
    else if c = '\n' ∧ afterCr = true then newlinesFrom false s
    else c :: newlinesFrom false s

/-- `\r\n` and `\r` are read as `\n`. -/
def universalNewlines (s : Str) : Str := newlinesFrom false s

/-- A newline ends a line in every convention. -/
theorem newlinesFrom_append (b : Bool) (s t : Str) :
    newlinesFrom b (s ++ '\n' :: t) = newlinesFrom b (s ++ ['\n']) ++ newlinesFrom false t := by
  induction s generalizing b with
  | nil =>
    have hcr : '\n' ≠ '\r' := by decide
    cases b <;> simp [newlinesFrom, hcr]
  | cons c s ih =>
    rw [List.cons_append, List.cons_append, newlinesFrom, newlinesFrom, ih, ih]
    split
    · rfl
    · split <;> rfl

theorem universalNewlines_append (s t : Str) :
    universalNewlines (s ++ '\n' :: t) = universalNewlines (s ++ ['\n']) ++ universalNewlines t :=
  newlinesFrom_append false s t

/-- What has no `\r` is read as it is. -/
theorem universalNewlines_append_of_notMem {s : Str} (h : '\r' ∉ s) (t : Str) :
    universalNewlines (s ++ t) = s ++ universalNewlines t := by
  unfold universalNewlines
  induction s with
  | nil => rfl
  | cons c s ih =>
    obtain ⟨hc, hs⟩ := List.ne_and_not_mem_of_not_mem_cons h
    rw [List.cons_append, newlinesFrom, if_neg (Ne.symm hc), if_neg, ih hs]
    · rfl
    · rintro ⟨-, hb⟩
      cases hb

theorem universalNewlines_of_notMem {s : Str} (h : '\r' ∉ s) : universalNewlines s = s := by
  have happend := universalNewlines_append_of_notMem h []
  rw [List.append_nil] at happend
  rw [happend]
  exact List.append_nil s

theorem notMem_newlinesFrom (b : Bool) (s : Str) : '\r' ∉ newlinesFrom b s := by
  induction s generalizing b with
  | nil => exact List.not_mem_nil
  | cons c s ih =>
    unfold newlinesFrom
    split
    · exact List.not_mem_cons_of_ne_of_not_mem (by decide) (ih true)
    · next hc =>
      split
      · exact ih false
      · exact List.not_mem_cons_of_ne_of_not_mem (Ne.symm hc) (ih false)

theorem notMem_universalNewlines (s : Str) : '\r' ∉ universalNewlines s :=
  notMem_newlinesFrom false s

/-! ### Reading and writing -/

/-- The text read from a file, unless it cannot be decoded. -/
def readText (file : List UInt8) : Option Str := (decode? file).map universalNewlines

theorem readText_utf8 (s : Str) : readText (utf8 s) = some (universalNewlines s) := by
  rw [readText, decode?_utf8]
  rfl

theorem readText_eq_some_iff {file : List UInt8} {text : Str} :
    readText file = some text ↔ ∃ s, utf8 s = file ∧ universalNewlines s = text := by
  simp only [readText, Option.map_eq_some_iff, decode?_eq_some_iff]

/-- Write at the start of a file, which is not truncated. -/
def overwrite (written file : List UInt8) : List UInt8 := written ++ file.drop written.length

theorem length_overwrite (written file : List UInt8) :
    (overwrite written file).length = max written.length file.length := by
  rw [overwrite, List.length_append, List.length_drop]
  omega

theorem overwrite_of_length_le {written file : List UInt8} (h : file.length ≤ written.length) :
    overwrite written file = written := by
  rw [overwrite, List.drop_eq_nil_of_le h, List.append_nil]

/-- Writing what is there already. -/
theorem overwrite_eq_self_iff {written file : List UInt8} :
    overwrite written file = file ↔ written <+: file := by
  constructor
  · intro h
    exact ⟨_, h⟩
  · rintro ⟨rest, rfl⟩
    rw [overwrite, List.drop_left]

/-! ### Finding a text -/

/-- `s.find(pattern, start)`; `none` is `-1`. -/
def strFind (pattern s : Str) (start : ℕ) : Option ℕ :=
  (List.range (s.length + 1)).find? fun i => decide (start ≤ i) && pattern.isPrefixOf (s.drop i)

/-- A place where the text stands bounds the first one. -/
theorem exists_strFind_le {pattern s : Str} {start i : ℕ} (hstart : start ≤ i) (hi : i ≤ s.length)
    (h : pattern <+: s.drop i) : ∃ j, strFind pattern s start = some j ∧ j ≤ i := by
  have hmatch : (decide (start ≤ i) && pattern.isPrefixOf (s.drop i)) = true := by
    rw [Bool.and_eq_true, decide_eq_true_eq, List.isPrefixOf_iff_prefix]
    exact ⟨hstart, h⟩
  cases hfind : strFind pattern s start with
  | none =>
    have hnone := List.find?_eq_none.mp hfind i (List.mem_range.mpr (by omega))
    exact absurd hmatch hnone
  | some j =>
    refine ⟨j, rfl, ?_⟩
    by_contra hlt
    -- the place `i` would have been met before
    obtain ⟨-, k, hk, hget, hbefore⟩ := List.find?_eq_some_iff_getElem.mp hfind
    rw [List.getElem_range] at hget
    subst hget
    have hnot := hbefore i (by omega)
    rw [List.getElem_range, hmatch] at hnot
    cases hnot

end Dfuser
