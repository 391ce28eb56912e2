import Dfuser.SplitModels.Losses

/-!
# What a dry run writes

`write_model_files` looks at its flag inside the loop over the classes.  The output
directory is created, and its `__init__.py` emptied, before the loop.

## Main results

* `writeModelFiles_dryRun` — the loop of a dry run writes nothing.
* `splitModelsFile_dryRun_eq_self_iff` — **when a dry run leaves everything as it was.**
-/

namespace Dfuser
namespace SplitModels

variable (w : WordClass) (lower : Str → Str)

/-- A dry run over any data model: what was written before the loop stays. -/
theorem writeModelFiles_dryRun (datamodel : Dict Str Str) (outputDir : Option Dir) :
    writeModelFiles lower datamodel outputDir true =
      (outputDir.getD Dict.empty).set "__init__.py".toList [] := by
  unfold writeModelFiles
  simp only [if_true]
  induction datamodel.entries with
  | nil => rfl
  | cons e es ih =>
    rw [List.foldl_cons]
    exact ih

/-- The input file is there, and its name passes the check. -/
def Accepted (inputFile : Str) (content : Option Str) : Prop :=
  content ≠ none ∧ "models.py".toList <:+: inputFile

theorem splitModelsFile_of_not_accepted {inputFile : Str} {content : Option Str}
    (h : ¬ Accepted inputFile content) (outputDir : Option Dir) (dryRun : Bool) :
    splitModelsFile w lower inputFile content outputDir dryRun = .ok outputDir := by
  unfold splitModelsFile
  cases content with
  | none => rfl
  | some text =>
    have hname : ¬ "models.py".toList <:+: inputFile := by
      intro hname
      exact h ⟨by simp, hname⟩
    dsimp only
    rw [if_neg hname]

/-- A dry run on an input that is read. -/
theorem splitModelsFile_dryRun {inputFile : Str} {content : Option Str}
    (h : Accepted inputFile content) (outputDir : Option Dir) :
    splitModelsFile w lower inputFile content outputDir true =
      .ok (some ((outputDir.getD Dict.empty).set "__init__.py".toList [])) := by
  obtain ⟨hcontent, hname⟩ := h
  obtain ⟨text, rfl⟩ := Option.ne_none_iff_exists'.mp hcontent
  unfold splitModelsFile
  dsimp only
  rw [if_pos hname, getDatamodelFromModelsContent_eq,
    ← writeModelFiles_dryRun lower (datamodelOf w text)]
  rfl

/-- **A dry run leaves everything as it was** when the input is refused, or the output
directory is there with an empty `__init__.py`. -/
theorem splitModelsFile_dryRun_eq_self_iff (inputFile : Str) (content : Option Str)
    (outputDir : Option Dir) :
    splitModelsFile w lower inputFile content outputDir true = .ok outputDir ↔
      ¬ Accepted inputFile content ∨
        ∃ dir, outputDir = some dir ∧ dir.get? "__init__.py".toList = some [] := by
  constructor
  · intro hsame
    rw [Classical.or_iff_not_imp_left, not_not]
    intro haccepted
    rw [splitModelsFile_dryRun w lower haccepted, Except.ok.injEq] at hsame
    refine ⟨_, hsame.symm, ?_⟩
    rw [Dict.get?_set_self]
  · rintro (hrefused | ⟨dir, rfl, hinit⟩)
    · exact splitModelsFile_of_not_accepted w lower hrefused outputDir true
    · by_cases haccepted : Accepted inputFile content
      · rw [splitModelsFile_dryRun w lower haccepted, Option.getD_some, Dict.set_eq_self hinit]
      · exact splitModelsFile_of_not_accepted w lower haccepted _ true

/-- The directory that a dry run creates. -/
theorem not_splitModelsFile_dryRun_absent :
    splitModelsFile asciiWords asciiLower "models.py".toList (some []) none true ≠ .ok none := by
  have haccepted : Accepted "models.py".toList (some []) := ⟨by simp, List.infix_rfl⟩
  rw [splitModelsFile_dryRun asciiWords asciiLower haccepted]
  intro hsame
  cases Except.ok.inj hsame

end SplitModels
end Dfuser
