import Dfuser.Lib.Dict
import Dfuser.Lib.TextFile

/-!
# Metadata headers

`scripts/bash/mkdocs_generate.py` writes metadata at the start of a Markdown file, between
two lines of three dashes and with an empty line after it.  To replace a header it drops
everything up to the next three dashes, but not the two newlines behind them, and writes
the new header with two newlines of its own.

## Main definitions

* `header` — the header of some metadata.
* `addMetadataHeaderToFile`, `updateMetadataHeaderInFile` — the bytes of the file afterwards.
* `ReplacesHeader` — an update puts one header in the place of another.

## Main results

* `exists_withoutHeader_header` — what is left when a header is dropped.
* `updateMetadataHeaderInFile_ne_self` — **no file survives an update as it is.**
* `length_lt_length_update` — an update makes a file longer than a new header and the body.
* `not_replacesHeader` — an update never puts one header in the place of another.
-/

namespace Dfuser
namespace Mkdocs

/-! ### The program -/

/-- `f'{key}: {value}\n'` for each entry of the metadata. -/
def headerLines (metadata : Dict Str Str) : Str :=
  metadata.entries.flatMap fun e => e.1 ++ ": ".toList ++ e.2 ++ ['\n']

/-- What is written before the content. -/
def header (metadata : Dict Str Str) : Str :=
  "---\n".toList ++ headerLines metadata ++ "---\n\n".toList

/-- `add_metadata_header_to_file`, on the bytes of the file. -/
def addMetadataHeaderToFile (metadata : Dict Str Str) (file : List UInt8) :
    Option (List UInt8) := do
  let content ← readText file
  return overwrite (utf8 (header metadata ++ content)) file

/-- The content from the three characters after the next `---` on.  Where there is none,
`find` returns `-1` and the content is cut at `2`. -/
def withoutHeader (content : Str) : Str :=
  if "---".toList <+: content then
    match strFind "---".toList content 3 with
    | some i => content.drop (i + 3)
    | none => content.drop 2
  else content

/-- `update_metadata_header_in_file`, on the bytes of the file. -/
def updateMetadataHeaderInFile (metadata : Dict Str Str) (file : List UInt8) :
    Option (List UInt8) := do
  let content ← readText file
  return overwrite (utf8 (header metadata ++ withoutHeader content)) file

/-! ### Dropping a header -/

/-- The lines between the dashes end where a line ends. -/
theorem exists_header_start (metadata : Dict Str Str) :
    ∃ p, "---\n".toList ++ headerLines metadata = p ++ ['\n'] := by
  unfold headerLines
  rcases List.eq_nil_or_concat metadata.entries with hnil | ⟨es, e, hconcat⟩
  · refine ⟨"---".toList, ?_⟩
    rw [hnil]
    rfl
  · refine ⟨"---\n".toList ++ (es.flatMap fun e => e.1 ++ ": ".toList ++ e.2 ++ ['\n']) ++
      (e.1 ++ ": ".toList ++ e.2), ?_⟩
    rw [hconcat, List.concat_eq_append, List.flatMap_append]
    simp [List.flatMap_cons]

/-- A text that starts with a header, as it is read. -/
theorem universalNewlines_header_append (metadata : Dict Str Str) (x : Str) :
    universalNewlines (header metadata ++ x) =
      "---\n".toList ++ universalNewlines (headerLines metadata) ++ "---".toList ++
        '\n' :: '\n' :: universalNewlines x := by
  have hdashes : "---\n\n".toList = "---".toList ++ ['\n', '\n'] := rfl
  have hlines : universalNewlines ("---\n".toList ++ headerLines metadata) =
      "---\n".toList ++ universalNewlines (headerLines metadata) :=
    universalNewlines_append_of_notMem (by decide) _
  obtain ⟨p, hp⟩ := exists_header_start metadata
  have hcut : header metadata ++ x = p ++ '\n' :: ("---\n\n".toList ++ x) := by
    rw [header, hp]
    simp
  rw [hcut, universalNewlines_append, ← hp, hlines,
    universalNewlines_append_of_notMem (by decide), hdashes]
  simp

/-- **Dropping a header leaves two newlines before the body**, and more when the metadata
hold three dashes. -/
theorem exists_withoutHeader_header (metadata : Dict Str Str) (x : Str) :
    ∃ rest, withoutHeader (universalNewlines (header metadata ++ x)) =
      rest ++ '\n' :: '\n' :: universalNewlines x := by
  rw [universalNewlines_header_append]
  generalize universalNewlines (headerLines metadata) = lines
  generalize universalNewlines x = body
  have hstart : "---".toList <+:
      "---\n".toList ++ lines ++ "---".toList ++ '\n' :: '\n' :: body := by
    refine ⟨'\n' :: (lines ++ "---".toList ++ '\n' :: '\n' :: body), ?_⟩
    simp
  have hend : "---".toList <+:
      ("---\n".toList ++ lines ++ "---".toList ++ '\n' :: '\n' :: body).drop
        (lines.length + 4) := by
    refine ⟨'\n' :: '\n' :: body, ?_⟩
    rw [List.append_assoc _ "---".toList, List.drop_left']
    simp
  have hplace : ∃ j, strFind "---".toList
      ("---\n".toList ++ lines ++ "---".toList ++ '\n' :: '\n' :: body) 3 = some j ∧
        j ≤ lines.length + 4 := exists_strFind_le (by omega) (by simp) hend
  obtain ⟨j, hj, hle⟩ := hplace
  refine ⟨("---\n".toList ++ lines ++ "---".toList).drop (j + 3), ?_⟩
  rw [withoutHeader, if_pos hstart, hj]
  dsimp only
  rw [List.drop_append_of_le_length]
  simp
  omega

theorem withoutHeader_suffix (content : Str) : withoutHeader content <:+ content := by
  unfold withoutHeader
  split
  · split
    · exact List.drop_suffix _ _
    · exact List.drop_suffix _ _
  · exact List.suffix_rfl

/-! ### Updating twice -/

/-- **No file survives an update as it is**: the two newlines after the dashes are written
once more. -/
theorem updateMetadataHeaderInFile_ne_self (metadata : Dict Str Str) (file : List UInt8) :
    updateMetadataHeaderInFile metadata file ≠ some file := by
  intro hsame
  obtain ⟨content, hcontent, hwritten⟩ := Option.bind_eq_some_iff.mp hsame
  rw [Option.pure_def, Option.some.injEq, overwrite_eq_self_iff] at hwritten
  obtain ⟨text, rfl, rfl⟩ := readText_eq_some_iff.mp hcontent
  obtain ⟨y, hy⟩ := isPrefix_of_utf8 hwritten
  -- the content that is written again comes from a text in which every line ends in `\n`
  have hcr : '\r' ∉ withoutHeader (universalNewlines text) := by
    intro hmem
    exact notMem_universalNewlines text ((withoutHeader_suffix _).subset hmem)
  obtain ⟨rest, hrest⟩ :=
    exists_withoutHeader_header metadata (withoutHeader (universalNewlines text) ++ y)
  rw [← List.append_assoc, hy, universalNewlines_append_of_notMem hcr] at hrest
  have hlength := congrArg List.length hrest
  simp only [List.length_append, List.length_cons] at hlength
  omega

/-! ### Updating what was added -/

theorem addMetadataHeaderToFile_utf8 (metadata : Dict Str Str) {body : Str} (h : '\r' ∉ body) :
    addMetadataHeaderToFile metadata (utf8 body) = some (utf8 (header metadata ++ body)) := by
  rw [addMetadataHeaderToFile, readText_utf8, universalNewlines_of_notMem h]
  dsimp only [Option.bind_eq_bind, Option.bind_some, Option.pure_def]
  rw [overwrite_of_length_le]
  rw [utf8_append, List.length_append]
  omega

/-- An update makes a file with a header longer than the new header and the body are. -/
theorem length_lt_length_update (m₁ m₂ : Dict Str Str) {body : Str} (h : '\r' ∉ body)
    {updated : List UInt8}
    (hupdated : updateMetadataHeaderInFile m₂ (utf8 (header m₁ ++ body)) = some updated) :
    (utf8 (header m₂ ++ body)).length < updated.length := by
  rw [updateMetadataHeaderInFile, readText_utf8] at hupdated
  dsimp only [Option.bind_eq_bind, Option.bind_some, Option.pure_def] at hupdated
  obtain ⟨rest, hrest⟩ := exists_withoutHeader_header m₁ body
  rw [hrest, universalNewlines_of_notMem h, Option.some.injEq] at hupdated
  subst hupdated
  have hnewlines : ∀ s : Str, (utf8 ('\n' :: '\n' :: s)).length = (utf8 s).length + 2 := by
    intro s
    have hcons : '\n' :: '\n' :: s = ['\n', '\n'] ++ s := rfl
    have hbytes : utf8 ['\n', '\n'] = [10, 10] := by decide
    rw [hcons, utf8_append, hbytes, List.length_append]
    simp only [List.length_cons, List.length_nil]
    omega
  rw [length_overwrite]
  simp only [utf8_append, List.length_append, hnewlines]
  omega

/-- Updating after adding is not adding to the original body. -/
theorem update_add_ne_add (m₁ m₂ : Dict Str Str) {body : Str} (h : '\r' ∉ body) :
    (addMetadataHeaderToFile m₁ (utf8 body)).bind (updateMetadataHeaderInFile m₂) ≠
      addMetadataHeaderToFile m₂ (utf8 body) := by
  rw [addMetadataHeaderToFile_utf8 m₁ h, addMetadataHeaderToFile_utf8 m₂ h, Option.bind_some]
  intro hsame
  have hlt := length_lt_length_update m₁ m₂ h hsame
  omega

/-! ### Replacing a header -/

/-- After a header was added to a body, an update puts another header in its place: the file
is the new header with the text of the body, as if that header had been added to the body,
and a second update leaves it as it is. -/
structure ReplacesHeader (body : List UInt8) (m₁ m₂ : Dict Str Str)
    (text : Str) (added updated : List UInt8) : Prop where
  read : readText body = some text
  add : addMetadataHeaderToFile m₁ body = some added
  update : updateMetadataHeaderInFile m₂ added = some updated
  as_added : addMetadataHeaderToFile m₂ body = some updated
  again : updateMetadataHeaderInFile m₂ updated = some updated
  nothing_left : updated = utf8 (header m₂ ++ text)

/-- **An update never puts one header in the place of another.** -/
theorem not_replacesHeader (body : List UInt8) (m₁ m₂ : Dict Str Str) :
    ¬ ∃ text added updated, ReplacesHeader body m₁ m₂ text added updated := by
  rintro ⟨text, added, updated, h⟩
  exact updateMetadataHeaderInFile_ne_self m₂ updated h.again

/-- A body of one line, and two titles of one letter. -/
theorem not_replacesHeader_oneLine :
    ¬ ∃ text added updated, ReplacesHeader (utf8 "x\n".toList)
      (Dict.empty.set "title".toList "a".toList) (Dict.empty.set "title".toList "b".toList)
      text added updated := by
  rintro ⟨text, added, updated, h⟩
  have hcr : '\r' ∉ "x\n".toList := by decide
  have hsame := update_add_ne_add (Dict.empty.set "title".toList "a".toList)
    (Dict.empty.set "title".toList "b".toList) hcr
  rw [h.add, h.as_added, Option.bind_some, h.update] at hsame
  exact hsame rfl

end Mkdocs
end Dfuser
