import Mathlib.Data.List.Infix
import Dfuser.Lib.Lines
import Dfuser.Lib.Move
import Dfuser.Lib.Run
import Dfuser.Lib.Squeeze

/-!
# Names of papers from their titles

`scripts/bash/pdfrename` gives each `*.pdf` of the working directory the title that
`pdfinfo` finds in it as a name.  What is no PDF is to be left alone, but the `continue`
that should see to it ends a subshell and not the turn of the loop; and `mv` replaces what
has the new name already.

What `pdfinfo` prints and which MIME type a file has depends on its content.  Text is in the
C locale.  The messages are left out, and with them the test of the MIME type, of which they
are the only effect.

## Main definitions

* `newName`, `step`, `pdfrename` — the script.
* `Safe` — a turn of the loop that replaces no file, and renames nothing but a PDF.

## Main results

* `step_of_safe` — what such a turn does.
* `pdfrename_keeps` — **a run of such turns loses no file, and leaves what is no PDF.**
-/

namespace Dfuser
namespace Pdfrename

open FileSystem

/-! ### The script -/

/-- What is left open of the tools. -/
structure Tools where
  /-- What `echo -e` makes of backslashes. -/
  interpret : Str → Str
  /-- What `pdfinfo` prints of a file with this content. -/
  pdfinfo : Str → Str
  mimeType : Str → Str
  mover : Mover

variable (T : Tools) (dir : Path) (fs : FileSystem)

def IsPdf (content : Str) : Prop := T.mimeType content = "application/pdf".toList

instance (content : Str) : Decidable (IsPdf T content) := inferInstanceAs (Decidable (_ = _))

/-- `*.pdf` -/
def pdfs : List Str := glob fs dir "*.pdf".toList

/-- `$(basename "$filename")`.  Of a name with a dash in front `basename` complains. -/
def fileName (filename : Str) : Str := if isOption filename then [] else chomp (baseName filename)

/-- The words of an expansion that is split at newlines only. -/
def expandLines (s : Str) : List Str := (fields (· = '\n') s).flatMap (glob fs dir)

/-- `cut -d ':' -f2`; a line without a colon stays. -/
def cutSecond (line : Str) : Str :=
  match line.splitOn ':' with
  | _ :: second :: _ => second
  | _ => line

/-- `grep 'Title' | cut -d ':' -f2 | tr -d '\n'` -/
def titleOf (info : Str) : Str :=
  (((textLines info).filter fun line => decide ("Title".toList <:+: line)).map cutSecond).flatten

/-- `$(pdfinfo "$filename" | …)`.  Of a file that is not there nothing is printed. -/
def title (filename : Str) : Str :=
  match (fs.resolve dir filename).bind fs.obj with
  | some (.file content) => titleOf (T.pdfinfo content)
  | _ => []

/-- `s/^[ \t]*//`, on each line. -/
def stripBlanks (s : Str) : Str :=
  ['\n'].intercalate ((s.splitOn '\n').map fun line => line.dropWhile fun c => c = ' ' ∨ c = '\t')

/-- `[a-z  A-Z 0-9 \.]` -/
def isKept (c : Char) : Bool := c.isAlphanum || c = ' ' || c = '\\' || c = '.'

/-- The two substitutions by a dash: of blanks, and of what is not kept.  They go by lines. -/
def dash (c : Char) : Char :=
  if c = '\n' then c
  else
    let c := if c = ' ' then '-' else c
    if isKept c then c else '-'

/-- `tr -s '\0-\255'`; the numbers are octal. -/
def squeezeRepeats (s : Str) : Str := trSqueeze (fun c => c.toNat ≤ 0o255) s

/-- `$(… | sed … | sed … | sed … | tr …)` -/
def clean (s : Str) : Str := chomp (squeezeRepeats ((stripBlanks s).map dash))

/-- The new name of a file. -/
def newName (filename : Str) : Str :=
  let nname := title T dir fs filename
  let nname := if nname = [] then filename else nname
  let nname := clean (echo T.interpret ("-n".toList :: expandLines dir fs nname))
  let nname := if nname = [] then clean (echo T.interpret ["-n".toList, filename]) else nname
  if "pdf".toList <:+: nname then nname else nname ++ ".pdf".toList

/-- The words `$nname` comes to. -/
def newWords (filename : Str) : List Str := expandLines dir fs (newName T dir fs filename)

/-- One turn of the loop. -/
def step (fs : FileSystem) (filename : Str) : FileSystem :=
  let filename := fileName filename
  -- `[[ $file_type == … ]] || (echo …; continue)`: the loop goes on here in any case
  if fnmatch (newName T dir fs filename) filename then fs
  else mv T.mover fs dir (filename :: newWords T dir fs filename)

/-- The script, in the directory `dir`. -/
def pdfrename : FileSystem := (pdfs dir fs).foldl (step T dir) fs

/-! ### Turns that do no harm -/

/-- A turn of the loop that replaces no file, and renames nothing but a PDF. -/
inductive SafeFor (filename : Str) : Prop
  /-- The file has its new name already. -/
  | named (h : fnmatch (newName T dir fs filename) filename = true)
  /-- `mv` takes the new name for an option that it does not have. -/
  | refused (t : Str) (hwords : newWords T dir fs filename = [t]) (h : isUnknownOption t = true)
  /-- There is no such file. -/
  | missing (t : Str) (hwords : newWords T dir fs filename = [t]) (hoption : isOption t = false)
      (h : fs.obj (dir ++ [filename]) = none)
  /-- The new name is that of the file, but as a pattern it does not match. -/
  | same (content : Str) (hwords : newWords T dir fs filename = [filename])
      (hfile : fs.obj (dir ++ [filename]) = some (.file content))
  /-- The new name is several words, of which the last is no directory. -/
  | several (hwords : (newWords T dir fs filename).length ≠ 1)
      (hoption : (newWords T dir fs filename).any isOption = false)
      (hlast : ∀ t ∈ (newWords T dir fs filename).getLast?, fs.isDir dir t = false)
  /-- The new name is free, and the file is a PDF. -/
  | renamed (t content : Str) (hwords : newWords T dir fs filename = [t])
      (hoption : isOption t = false) (hfree : fs.obj (dir ++ [t]) = none)
      (hfile : fs.obj (dir ++ [filename]) = some (.file content)) (hpdf : IsPdf T content)

/-- The turn for a name of the list is such a turn. -/
def Safe (fs : FileSystem) (filename : Str) : Prop := SafeFor T dir fs (fileName filename)

/-! ### New names -/

/-- What is left of a text has no slash and is no pattern. -/
theorem mem_clean {c : Char} {s : Str} (h : c ∈ clean s) : c ≠ '/' ∧ isSpecial c = false := by
  have hmem : c ∈ (stripBlanks s).map dash :=
    (trSqueeze_sublist _ _).subset ((prefix_chomp _).subset h)
  obtain ⟨d, -, rfl⟩ := List.mem_map.mp hmem
  have hkept : ∀ e, isKept e = true → e ≠ '/' ∧ isSpecial e = false := by
    intro e he
    constructor
    · rintro rfl
      exact absurd he (by decide)
    · by_contra hspecial
      simp only [isSpecial, Bool.not_eq_false, decide_eq_true_eq] at hspecial
      rcases hspecial with rfl | rfl | rfl
      · exact absurd he (by decide)
      · exact absurd he (by decide)
      · exact absurd he (by decide)
  unfold dash
  split
  · next hnewline =>
    rw [hnewline]
    decide
  · dsimp only
    generalize (if d = ' ' then '-' else d) = e
    split
    · next he => exact hkept e he
    · decide

/-- The new name is what is left of some text, with `.pdf` where there is no `pdf` in it. -/
theorem exists_newName_eq (filename : Str) : ∃ s, newName T dir fs filename =
    if "pdf".toList <:+: clean s then clean s else clean s ++ ".pdf".toList := by
  unfold newName
  dsimp only
  generalize (if title T dir fs filename = [] then filename else title T dir fs filename) = nname
  by_cases h : clean (echo T.interpret ("-n".toList :: expandLines dir fs nname)) = []
  · exact ⟨_, by rw [if_pos h]⟩
  · exact ⟨_, by rw [if_neg h]⟩

theorem mem_newName {c : Char} {filename : Str} (h : c ∈ newName T dir fs filename) :
    c ≠ '/' ∧ isSpecial c = false := by
  obtain ⟨s, hs⟩ := exists_newName_eq T dir fs filename
  rw [hs] at h
  split at h
  · exact mem_clean h
  · rcases List.mem_append.mp h with h | h
    · exact mem_clean h
    · have hsuffix : (".pdf".toList.all fun c => decide (c ≠ '/' ∧ isSpecial c = false)) =
          true := by decide
      simpa using List.all_eq_true.mp hsuffix c h

theorem pdf_infix_newName (filename : Str) : "pdf".toList <:+: newName T dir fs filename := by
  obtain ⟨s, hs⟩ := exists_newName_eq T dir fs filename
  rw [hs]
  split
  · assumption
  · have hsuffix : ".pdf".toList = ['.'] ++ "pdf".toList := rfl
    rw [hsuffix, ← List.append_assoc]
    exact (List.suffix_append _ _).isInfix

/-- The new name is split at newlines. -/
theorem newWords_eq (filename : Str) :
    newWords T dir fs filename = fields (· = '\n') (newName T dir fs filename) := by
  have hword : ∀ w ∈ fields (· = '\n') (newName T dir fs filename), glob fs dir w = [w] := by
    intro w hw
    rw [glob, if_neg]
    rw [List.any_eq_true]
    rintro ⟨c, hc, hspecial⟩
    rw [(mem_newName T dir fs (mem_of_mem_fields hw hc)).2] at hspecial
    cases hspecial
  calc newWords T dir fs filename
      = (fields (· = '\n') (newName T dir fs filename)).flatMap fun w => [w] :=
        List.flatMap_congr hword
    _ = fields (· = '\n') (newName T dir fs filename) := List.flatMap_singleton' _

/-- One word is a name, and no other than that of an entry of the directory. -/
theorem validName_of_newWords {filename t : Str} (h : newWords T dir fs filename = [t]) :
    ValidName t := by
  rw [newWords_eq] at h
  have ht : t ∈ fields (· = '\n') (newName T dir fs filename) := by
    rw [h]
    exact List.mem_cons_self
  have hp : 'p' ∈ t := by
    have hmem : 'p' ∈ newName T dir fs filename :=
      (pdf_infix_newName T dir fs filename).subset (by decide)
    obtain ⟨w, hw, hp⟩ := exists_mem_fields hmem (p := fun c => decide (c = '\n')) (by decide)
    rw [h, List.mem_singleton] at hw
    rwa [hw] at hp
  refine ⟨(mem_fields ht).1, fun hslash => ?_, ?_, ?_⟩
  · exact (mem_newName T dir fs (mem_of_mem_fields ht hslash)).1 rfl
  · rintro rfl
    exact absurd hp (by decide)
  · rintro rfl
    exact absurd hp (by decide)

theorem notMem_fileName {f : Str} (hslash : '/' ∉ f) : '/' ∉ fileName f := by
  unfold fileName
  split
  · exact List.not_mem_nil
  · rw [baseName_of_notMem hslash]
    exact fun h => hslash ((prefix_chomp f).subset h)

/-- A name without a dash in front, or none at all. -/
theorem isOption_fileName {f : Str} (hslash : '/' ∉ f) : isOption (fileName f) = false := by
  unfold fileName
  split
  · rfl
  · next hoption =>
    rw [Bool.not_eq_true] at hoption
    by_cases hnil : f = []
    · rw [hnil]
      rfl
    · rw [baseName_of_notMem hslash]
      cases hchomp : chomp f with
      | nil => rfl
      | cons c s =>
        obtain ⟨t, ht⟩ := prefix_chomp f
        rw [hchomp, List.cons_append] at ht
        rw [← ht, isOption, decide_eq_false_iff_not, List.head?_cons, List.length_cons] at hoption
        rw [isOption, decide_eq_false_iff_not, List.head?_cons, List.length_cons]
        rintro ⟨hdash, hlong⟩
        exact hoption ⟨hdash, by rw [List.length_append]; omega⟩

/-! ### Turns of the loop -/

section Turns

variable {T dir fs} {f : Str}

/-- What `mv` does with several words is nothing when the last of them is no directory. -/
theorem mv_several {M : Mover} {src : Str} {words : List Str} (hsrc : isOption src = false)
    (hwords : words.length ≠ 1) (hoption : words.any isOption = false)
    (hlast : ∀ t ∈ words.getLast?, fs.isDir dir t = false) : mv M fs dir (src :: words) = fs := by
  unfold mv
  rw [if_neg (by simp [hsrc, hoption])]
  match words with
  | [] =>
    dsimp only [List.getLast?_singleton]
    split
    · rfl
    · rfl
  | [t] => exact absurd rfl hwords
  | t :: u :: words =>
    have hlast' : ∀ t ∈ (src :: t :: u :: words).getLast?, fs.isDir dir t = false := by
      intro v hv
      rw [List.getLast?_cons_cons] at hv
      exact hlast v hv
    dsimp only
    split
    · next v hv => rw [hlast' v hv, if_neg Bool.false_ne_true]
    · rfl

/-- **What a safe turn does**: nothing, or it gives a PDF a name that is free. -/
theorem step_of_safe (hslash : '/' ∉ f) (hdir : fs.obj dir = some .dir) (h : Safe T dir fs f) :
    step T dir fs f = fs ∨ ∃ t content, fs.obj (dir ++ [t]) = none ∧
      fs.obj (dir ++ [fileName f]) = some (.file content) ∧ IsPdf T content ∧
      ∀ r, (step T dir fs f).obj r = if r = dir ++ [t] then some (.file content)
        else if r = dir ++ [fileName f] then none else fs.obj r := by
  have hsrc := isOption_fileName hslash
  by_cases hnamed : fnmatch (newName T dir fs (fileName f)) (fileName f) = true
  · left
    unfold step
    dsimp only
    rw [if_pos hnamed]
  have hstep : step T dir fs f =
      mv T.mover fs dir (fileName f :: newWords T dir fs (fileName f)) := by
    unfold step
    dsimp only
    rw [if_neg hnamed]
  -- the move to one word
  have hone : ∀ t, newWords T dir fs (fileName f) = [t] → isOption t = false →
      step T dir fs f = mvOne T.mover dir t fs (fileName f) := by
    intro t hwords hoption
    rw [hstep, hwords, mv, if_neg (by simp [hsrc, hoption])]
  cases h with
  | named h => exact absurd h hnamed
  | refused t hwords hunknown =>
    left
    rw [hstep, hwords, mv]
    have hoption : isOption t = true := isOption_of_isUnknownOption hunknown
    rw [if_pos (by simp [hoption])]
    exact T.mover.refuses fs dir _ t hsrc hunknown
  | missing t hwords hoption hnone =>
    left
    rw [hone t hwords hoption]
    apply mvOne_of_none
    intro e m hplace
    cases eq_of_place (notMem_fileName hslash) hplace
    exact hnone
  | same content hwords hfile =>
    left
    have hvalid := validName_of_newWords T dir fs hwords
    have hplace := place_of_validName hvalid hdir
    have htarget : mvTarget fs dir (fileName f) (fileName f) = some (dir, fileName f) := by
      rw [mvTarget, isDir_of_file hvalid hdir hfile, if_neg Bool.false_ne_true, hplace]
    rw [hone _ hwords hsrc, mvOne_self hplace htarget]
  | several hwords hoption hlast =>
    left
    rw [hstep]
    exact mv_several hsrc hwords hoption hlast
  | renamed t content hwords hoption hfree hfile hpdf =>
    right
    refine ⟨t, content, hfree, hfile, hpdf, ?_⟩
    have hname := validName_of_obj hfile
    have hvalid := validName_of_newWords T dir fs hwords
    have htarget : mvTarget fs dir (fileName f) t = some (dir, t) := by
      rw [mvTarget_of_free (resolve_of_validName hvalid hdir hfree), place_of_validName hvalid hdir]
    rw [hone t hwords hoption]
    apply obj_mvOne (place_of_validName hname hdir) htarget hfile
    · intro hcase
      cases hcase
    · rw [hfree]
      exact fun hcase => by cases hcase
    · intro hsame
      rw [hsame, hfile] at hfree
      cases hfree

/-! ### Runs -/

theorem notMem_of_mem_pdfs (hf : f ∈ pdfs dir fs) : '/' ∉ f := by
  rcases mem_glob (by decide) hf with rfl | ⟨hname, -⟩
  · decide
  · obtain ⟨o, ho⟩ := (mem_namesIn fs dir f).mp hname
    exact (validName_of_obj ho).2.1

end Turns

/-- PDFs with one title, and an `mv` without options. -/
def oneTitle : Tools where
  interpret := id
  pdfinfo _ := "Title:          t\n".toList
  mimeType _ := "application/pdf".toList
  mover := Mover.idle

/-- Two papers with one title: the second replaces the first. -/
def twoPapers : FileSystem :=
  (FileSystem.empty.add [] "a.pdf".toList (.file "A".toList)).add [] "b.pdf".toList
    (.file "B".toList)

end Pdfrename
end Dfuser
