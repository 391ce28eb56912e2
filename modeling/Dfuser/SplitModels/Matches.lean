import Dfuser.Lib.Dict
import Dfuser.Lib.Regex
import Dfuser.History.Database

/-!
# Splitting a data model into files

`scripts/bash/split_data_model.py` cuts a `models.py` into class definitions with one
regular expression and writes each of them to a file of its own, named after the class
in lower case.  The expression repeats, greedily, a newline, a greedy run of white space
and a *lazy* run of any characters.  Nothing after it asks the lazy run for more than
one character, so what is matched after the header is a sequence of units: a newline,
white space, and a single character.

White space is that of Python, for `\s` and for `str.split` alike.  Which characters
match `\w`, and how a name is lower-cased, are parameters.

## Main definitions

* `classRegex`, `entityName`, `getDatamodelFromModelsContent` — finding the classes.
* `writeModelFiles`, `splitModelsFile` — writing them.
* `unit?` — what one round of the repetition consumes.

## Main results

* `first_unit` — the rounds of the repetition.
* `first_classRegex_header` — the match at a class header.
* `entityName_header` — the name found in it.
-/

namespace Dfuser
namespace SplitModels

open History (isSpace)

/-! ### The program -/

/-- The characters of `\w`: no parenthesis and no white space is one. -/
structure WordClass where
  isWord : Char → Bool
  paren : isWord '(' = false
  space : ∀ c, isSpace c = true → isWord c = false

/-- The exceptions the program can raise. -/
inductive PyError
  /-- Asking `None` for a group. -/
  | attributeError
  deriving DecidableEq, Repr

/-- `\s+`. -/
def spaces : Regex Char := .plus true (.char isSpace)

/-- `\w+`. -/
def wordRun (w : WordClass) : Regex Char := .plus true (.char w.isWord)

/-- `\n\s+.+?`. -/
def unitRegex : Regex Char :=
  .seq (.char fun c => decide (c = '\n')) (.seq spaces (.plus false (.char fun _ => true)))

/-- `class\s+\w+\(.*?\):(?:\n\s+.+?)+`, where a dot also matches a newline. -/
def classRegex (w : WordClass) : Regex Char :=
  .word "class".toList (.seq spaces (.seq (wordRun w) (.word "(".toList
    (.seq (.star false (.char fun _ => true)) (.word "):".toList (.plus true unitRegex))))))

/-- The group of `class\s+(\w+)\(`, matched at the start of a text. -/
def entityNameAt (w : WordClass) (t : Str) : Option Str :=
  (Regex.results (.word "class".toList spaces) t).findSome? fun r₁ =>
    (Regex.results (wordRun w) r₁).findSome? fun r₂ =>
      if "(".toList <+: r₂ then some (r₁.take (r₁.length - r₂.length)) else none

/-- `re.search(r"class\s+(\w+)\(", class_def).group(1)`. -/
def entityName (w : WordClass) (classDef : Str) : Except PyError Str :=
  match classDef.tails.findSome? (entityNameAt w) with
  | some name => .ok name
  | none => .error .attributeError

/-- `get_datamodel_from_models_content`. -/
def getDatamodelFromModelsContent (w : WordClass) (modelsContent : Str) :
    Except PyError (Dict Str Str) :=
  ((classRegex w).findall modelsContent).foldlM (fun datamodel classDef => do
    let name ← entityName w classDef
    return datamodel.set name classDef) Dict.empty

/-- A directory of text files. -/
abbrev Dir := Dict Str Str

/-- `f"{entity_name.lower()}.py"`. -/
def outputFile (lower : Str → Str) (name : Str) : Str := lower name ++ ".py".toList

/-- `write_model_files`: the output directory, which is created when it is not there. -/
def writeModelFiles (lower : Str → Str) (datamodel : Dict Str Str) (outputDir : Option Dir)
    (dryRun : Bool) : Dir :=
  let dir := (outputDir.getD Dict.empty).set "__init__.py".toList []
  datamodel.entries.foldl (fun dir e =>
    if dryRun then dir else dir.set (outputFile lower e.1) e.2) dir

/-- `split_models_file`: the output directory afterwards.  `content` is the text of the
input file, if there is one. -/
def splitModelsFile (w : WordClass) (lower : Str → Str) (inputFile : Str) (content : Option Str)
    (outputDir : Option Dir) (dryRun : Bool) : Except PyError (Option Dir) :=
  match content with
  | none => .ok outputDir
  | some text =>
    if "models.py".toList <:+: inputFile then do
      let datamodel ← getDatamodelFromModelsContent w text
      return some (writeModelFiles lower datamodel outputDir dryRun)
    else .ok outputDir

/-! ### One round of the repetition -/

/-- What is left after one round: the newline, a run of white space and one character
are gone.  At the end of the text the run gives one of its own characters away. -/
def unit? : Str → Option Str
  | '\n' :: t =>
    match t.dropWhile isSpace with
    | _ :: rest => if t.takeWhile isSpace = [] then none else some rest
    | [] => if 2 ≤ t.length then some [] else none
  | _ => none

theorem first_lazy_plus (s : Str) :
    Regex.first (.plus false (.char fun _ => true)) s = s.tail? := by
  cases s with
  | nil => rfl
  | cons a s =>
    rw [Regex.plus, Regex.first_seq_char_cons, if_pos rfl, Regex.first, Regex.results_lazy_any]
    cases s <;> rfl

/-- A run of white space before one more character. -/
theorem first_spaces_any (t : Str) :
    Regex.first (.seq (.star true (.char isSpace)) (.plus false (.char fun _ => true))) t =
      match t.dropWhile isSpace with
      | _ :: rest => some rest
      | [] => if t = [] then none else some [] := by
  induction t with
  | nil => simp [Regex.first_seq, first_lazy_plus]
  | cons a t ih =>
    rw [Regex.first_seq] at ih
    rw [Regex.first_seq, Regex.results_star_char]
    by_cases ha : isSpace a = true
    · simp only [ha, if_true, List.findSome?_append, ih, List.findSome?_singleton, first_lazy_plus,
        List.dropWhile_cons]
      cases hd : t.dropWhile isSpace with
      | cons c rest => simp
      | nil =>
        cases t with
        | nil => simp
        | cons b t => simp
    · simp [ha, first_lazy_plus]

theorem first_unit (s : Str) : Regex.first unitRegex s = unit? s := by
  cases s with
  | nil => rfl
  | cons a t =>
    rw [unitRegex, Regex.first_seq_char_cons]
    by_cases ha : a = '\n'
    · subst ha
      simp only [decide_true, if_true, spaces, Regex.plus, Regex.first_seq_assoc, unit?]
      cases t with
      | nil => rfl
      | cons b t =>
        rw [Regex.first_seq_char_cons]
        have hrun := first_spaces_any t
        rw [Regex.plus] at hrun
        by_cases hb : isSpace b = true
        · rw [if_pos hb, hrun]
          simp only [List.dropWhile_cons, hb, if_true, List.takeWhile_cons, List.length_cons]
          cases t.dropWhile isSpace with
          | cons c rest => simp
          | nil =>
            cases t with
            | nil => rfl
            | cons c t => simp
        · simp [hb]
    · have hnone : unit? (a :: t) = none := by
        unfold unit?
        split
        · next heq => cases heq; exact absurd rfl ha
        · rfl
      rw [hnone]
      simp [ha]

/-! ### The repetition -/

theorem length_lt_of_mem_results_unit {s t : Str} (h : t ∈ Regex.results unitRegex s) :
    t.length < s.length := by
  cases s with
  | nil => cases h
  | cons a s =>
    rw [unitRegex, Regex.results, Regex.results] at h
    split at h
    · rw [List.flatMap_singleton] at h
      have := (Regex.suffix_of_mem_results h).length_le
      rw [List.length_cons]
      omega
    · cases h

/-- What is left after as many rounds as there are. -/
theorem first_units (s : Str) :
    Regex.first (.star true unitRegex) s =
      match unit? s with
      | some t => Regex.first (.star true unitRegex) t
      | none => some s := by
  rw [Regex.first_star_greedy fun t ht => length_lt_of_mem_results_unit ht, first_unit]
  cases unit? s <;> rfl

theorem first_units_plus (s : Str) :
    Regex.first (.plus true unitRegex) s = (unit? s).bind (Regex.first (.star true unitRegex)) := by
  rw [Regex.first_plus, first_unit]

/-- One round consumes a newline, white space and one more character. -/
theorem unit?_eq_some {s t : Str} (h : unit? s = some t) :
    ∃ sp c, s = '\n' :: (sp ++ c :: t) ∧ (sp ≠ [] ∧ ∀ a ∈ sp, isSpace a = true) ∧
      (isSpace c = true → t = []) := by
  unfold unit? at h
  split at h
  · next u =>
    have hspace := List.all_eq_true.mp (List.all_takeWhile (p := isSpace) (l := u))
    have happ := List.takeWhile_append_dropWhile (p := isSpace) (l := u)
    split at h
    · next c rest hdrop =>
      split at h
      · cases h
      · next hne =>
        cases h
        refine ⟨u.takeWhile isSpace, c, by rw [← hdrop, happ], ⟨hne, hspace⟩, ?_⟩
        intro hc
        have := List.head_dropWhile_not isSpace (l := u) (by simp [hdrop])
        simp [hdrop, hc] at this
    · next hdrop =>
      split at h
      · next hlen =>
        cases h
        rw [hdrop, List.append_nil] at happ
        have hne : u ≠ [] := by rintro rfl; simp at hlen
        refine ⟨u.dropLast, u.getLast hne, ?_, ⟨?_, ?_⟩, fun _ => rfl⟩
        · rw [List.dropLast_concat_getLast]
        · intro hnil
          have := congrArg List.length hnil
          simp only [List.length_dropLast, List.length_nil] at this
          omega
        · intro a ha
          exact hspace a (by rw [happ]; exact List.mem_of_mem_dropLast ha)
      · cases h
  · cases h

/-! ### A match -/

theorem first_wordRun_seq_of_isSpace (w : WordClass) (q : Regex Char) {a : Char} (s : Str)
    (ha : isSpace a = true) : Regex.first (.seq (wordRun w) q) (a :: s) = none := by
  rw [wordRun, Regex.plus, Regex.first_seq_assoc, Regex.first_seq_char_cons]
  simp [w.space a ha]

theorem not_paren_prefix_of_isWord (w : WordClass) {a : Char} (s : Str) (ha : w.isWord a = true) :
    ¬ "(".toList <+: a :: s := by
  rintro ⟨t, ht⟩
  have hparen : a = '(' := (List.cons.inj ht).1.symm
  rw [hparen, w.paren] at ha
  cases ha

theorem first_paren_of_isWord (w : WordClass) (q : Regex Char) {a : Char} (s : Str)
    (ha : w.isWord a = true) : Regex.first (.word "(".toList q) (a :: s) = none := by
  rw [Regex.first_word, if_neg (not_paren_prefix_of_isWord w s ha)]

/-- What follows the opening parenthesis: any text up to the first closing parenthesis
and colon that the repetition can follow. -/
def basesRegex : Regex Char :=
  .seq (.star false (.char fun _ => true)) (.word "):".toList (.plus true unitRegex))

theorem first_classRegex_eq_some_iff (w : WordClass) {t r : Str} :
    Regex.first (classRegex w) t = some r ↔
      ∃ sp name rest, t = "class".toList ++ (sp ++ (name ++ '(' :: rest)) ∧
        (sp ≠ [] ∧ ∀ a ∈ sp, isSpace a = true) ∧ (name ≠ [] ∧ ∀ a ∈ name, w.isWord a = true) ∧
        Regex.first basesRegex rest = some r := by
  rw [classRegex, Regex.first_word_eq_some_iff]
  simp only [spaces, Regex.first_run_eq_some_iff fun a s => first_wordRun_seq_of_isSpace w _ s]
  simp only [wordRun, Regex.first_run_eq_some_iff fun a s => first_paren_of_isWord w _ s,
    Regex.first_word_eq_some_iff]
  constructor
  · rintro ⟨t₁, rfl, sp, t₂, rfl, hsp, name, t₃, rfl, hname, rest, rfl, h⟩
    exact ⟨sp, name, rest, rfl, hsp, hname, h⟩
  · rintro ⟨sp, name, rest, rfl, hsp, hname, h⟩
    exact ⟨_, rfl, sp, _, rfl, hsp, name, _, rfl, hname, rest, rfl, h⟩

/-- The name in a class definition is the one in its header. -/
theorem entityName_header (w : WordClass) {sp name rest : Str}
    (hsp : sp ≠ [] ∧ ∀ a ∈ sp, isSpace a = true)
    (hname : name ≠ [] ∧ ∀ a ∈ name, w.isWord a = true) :
    entityName w ("class".toList ++ (sp ++ (name ++ '(' :: rest))) = .ok name := by
  have hstop : ('(' :: rest).dropWhile w.isWord = '(' :: rest := by simp [w.paren]
  have hstop' : (name ++ '(' :: rest).dropWhile isSpace = name ++ '(' :: rest := by
    obtain ⟨c, name, rfl⟩ := List.exists_cons_of_ne_nil hname.1
    have hc := hname.2 c List.mem_cons_self
    rw [List.cons_append, List.dropWhile_cons_of_neg]
    intro hspace
    rw [w.space c hspace] at hc
    cases hc
  have hword : (Regex.results (wordRun w) (name ++ '(' :: rest)).findSome? (fun r =>
      if "(".toList <+: r then
        some ((name ++ '(' :: rest).take ((name ++ '(' :: rest).length - r.length))
      else none) = some name := by
    rw [wordRun, Regex.findSome?_run _ hname.1 hname.2 hstop, if_pos ⟨rest, rfl⟩]
    · simp
    · intro a s ha
      rw [if_neg (not_paren_prefix_of_isWord w s ha)]
  have hat : entityNameAt w ("class".toList ++ (sp ++ (name ++ '(' :: rest))) = some name := by
    rw [entityNameAt, Regex.results_word, if_pos (List.prefix_append _ _), List.drop_left, spaces,
      Regex.findSome?_run _ hsp.1 hsp.2 hstop', hword]
    intro a s ha
    have hnil : Regex.results (wordRun w) (a :: s) = [] := by
      simp [wordRun, Regex.plus, Regex.results, w.space a ha]
    rw [hnil]
    rfl
  rw [entityName, Regex.findSome?_tails_of_some hat]

/-! ### What the program finds -/

/-- A text that is found stands in the text that is searched, and is what is matched
where it stands. -/
theorem mem_findall {w : WordClass} {s d : Str} (h : d ∈ (classRegex w).findall s) :
    ∃ r, (d ++ r, r) ∈ scan (Regex.first (classRegex w)) s ∧ d ++ r <:+ s ∧
      Regex.first (classRegex w) (d ++ r) = some r := by
  obtain ⟨⟨t, r⟩, hmem, rfl⟩ := List.mem_map.mp h
  obtain ⟨hsuf, hfirst⟩ := mem_scan (fun _ _ => Regex.suffix_of_first) hmem
  simp only at hsuf hfirst
  obtain ⟨d, rfl⟩ := Regex.suffix_of_first hfirst
  have htake : (d ++ r).take ((d ++ r).length - r.length) = d := by
    rw [List.length_append, Nat.add_sub_cancel, List.take_left]
  simp only [htake]
  exact ⟨r, hmem, hsuf, hfirst⟩

/-- The name of a class definition. -/
def nameOf (w : WordClass) (classDef : Str) : Str := ((entityName w classDef).toOption).getD []

theorem nameOf_header {w : WordClass} {sp name rest : Str}
    (hsp : sp ≠ [] ∧ ∀ a ∈ sp, isSpace a = true)
    (hname : name ≠ [] ∧ ∀ a ∈ name, w.isWord a = true) :
    nameOf w ("class".toList ++ (sp ++ (name ++ '(' :: rest))) = name := by
  rw [nameOf, entityName_header w hsp hname]
  rfl

/-- Every text that is found has a name. -/
theorem entityName_of_mem_findall {w : WordClass} {s d : Str} (h : d ∈ (classRegex w).findall s) :
    entityName w d = .ok (nameOf w d) := by
  obtain ⟨r, -, -, hfirst⟩ := mem_findall h
  obtain ⟨sp, name, rest, ht, hsp, hname, hrest⟩ := (first_classRegex_eq_some_iff w).mp hfirst
  obtain ⟨u, rfl⟩ := Regex.suffix_of_first hrest
  have hd : d = "class".toList ++ (sp ++ (name ++ '(' :: u)) := by
    have hcut : d ++ r = ("class".toList ++ (sp ++ (name ++ '(' :: u))) ++ r := by
      rw [ht]
      simp
    exact List.append_cancel_right hcut
  rw [hd, nameOf_header hsp hname, entityName_header w hsp hname]

theorem foldlM_entityName {w : WordClass} {ds : List Str} (datamodel : Dict Str Str)
    (h : ∀ d ∈ ds, entityName w d = .ok (nameOf w d)) :
    ds.foldlM (fun datamodel classDef => do
        let name ← entityName w classDef
        return datamodel.set name classDef) datamodel =
      .ok (ds.foldl (fun datamodel d => datamodel.set (nameOf w d) d) datamodel) := by
  induction ds generalizing datamodel with
  | nil => rfl
  | cons d ds ih =>
    rw [List.forall_mem_cons] at h
    rw [List.foldlM_cons, h.1]
    exact ih _ h.2

/-- The last text found under each name. -/
def datamodelOf (w : WordClass) (text : Str) : Dict Str Str :=
  ((classRegex w).findall text).foldl (fun datamodel d => datamodel.set (nameOf w d) d) Dict.empty

/-- The data model never fails. -/
theorem getDatamodelFromModelsContent_eq (w : WordClass) (s : Str) :
    getDatamodelFromModelsContent w s = .ok (datamodelOf w s) :=
  foldlM_entityName _ fun _ => entityName_of_mem_findall

/-- The texts found are the values of the data model. -/
theorem mem_findall_of_get? {w : WordClass} {s name d : Str}
    (h : (datamodelOf w s).get? name = some d) :
    d ∈ (classRegex w).findall s ∧ nameOf w d = name := by
  rw [datamodelOf, Dict.get?_foldl_set, Dict.get?_empty, Option.or_none, Option.map_id'] at h
  have := List.mem_filter.mp (List.mem_of_getLast? h)
  exact ⟨this.1, of_decide_eq_true this.2⟩

/-- What a file of the output directory holds: the last class definition written to it. -/
theorem get?_writeModelFiles (lower : Str → Str) (datamodel : Dict Str Str) (outputDir : Option Dir)
    (file : Str) :
    (writeModelFiles lower datamodel outputDir false).get? file =
      (((datamodel.entries.filter fun e => outputFile lower e.1 = file).getLast?.map Prod.snd).or
        (((outputDir.getD Dict.empty).set "__init__.py".toList []).get? file)) := by
  simp only [writeModelFiles, Bool.false_eq_true, if_false]
  rw [Dict.get?_foldl_set]

end SplitModels
end Dfuser
