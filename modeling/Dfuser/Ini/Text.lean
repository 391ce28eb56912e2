import Dfuser.Lib.Columns
import Dfuser.Lib.Lines
import Dfuser.Lib.Replace
import Dfuser.Lib.TextFile
import Dfuser.History.Database
import Dfuser.Ini.Layout

/-!
# Configurations as text

What `configparser` makes of the text of an INI file, and the text it writes for a
configuration.  The reader goes through the lines with a few variables: the section that is
being filled, the option that a deeper line continues, how deep the line of that option was,
and what has been met in this file, where nothing may come twice.  The values are lists of
lines until the end of the file; here they are kept joined, and the ones of this file are
those of `optionsAdded`.

Keys without a value, comments behind a value and other delimiters are off, as
`ini_manager.py` leaves them.  A line stands without its end.

## Main definitions

* `Reader`, `Reader.readLine` — `_read`, one line at a time.
* `readText` — reading a text over a configuration.
* `parse` — `parse_ini_file`, on the text of the file.
* `write` — `write_ini_file`, as the text it leaves.
* `Writable` — what can be read back.
-/

namespace Dfuser
namespace Ini

open History (isSpace)
open Columns (strip)

/-! ### Lines -/

/-- Why a text is no configuration. -/
inductive ReadError
  | missingSectionHeader (lineno : ℕ) (line : Str)
  | duplicateSection (sectname : Str) (lineno : ℕ)
  | duplicateOption (sectname optname : Str) (lineno : ℕ)
  /-- The lines that are no options. -/
  | parsing (errors : List (ℕ × Str))
  deriving DecidableEq, Repr

/-- `COMMENT_PREFIXES`, on a line that has been stripped. -/
def isComment (value : Str) : Bool := value.head?.any fun c => c = '#' ∨ c = ';'

/-- `SECTCRE`: the name in brackets at the start, as long as it can be. -/
def header? : Str → Option Str
  | '[' :: rest =>
    match (rest.rdropWhile (· ≠ ']')).dropLast with
    | [] => none
    | name => some name
  | _ => none

/-- The delimiters between a name and a value. -/
def isDelimiter (c : Char) : Bool := c = '=' ∨ c = ':'

/-- `OPTCRE`: the name before the first delimiter and the value after it, both stripped. -/
def option? (value : Str) : Option (Str × Str) :=
  match value.dropWhile fun c => !isDelimiter c with
  | [] => none
  | _ :: optval =>
    some ((value.takeWhile fun c => !isDelimiter c).rdropWhile isSpace, strip isSpace optval)

/-! ### The reader -/

/-- The variables of `_read`. -/
structure Reader (x : OptionXform) where
  config : Config x
  /-- The name of the section that is being filled. -/
  cursect : Option Str
  /-- The option that a deeper line continues; empty when there is none. -/
  optname : Str
  indentLevel : ℕ
  /-- `elements_added`, the names of sections. -/
  sectionsAdded : List Str
  /-- `elements_added`, the names of options. -/
  optionsAdded : List (Str × Str)
  errors : List (ℕ × Str)

namespace Reader

variable {x : OptionXform}

/-- Before the first line. -/
def start (c : Config x) : Reader x := ⟨c, none, [], 0, [], [], []⟩

/-- `indent_level = cur_indent_level`. -/
def setIndent (ρ : Reader x) (indent : ℕ) : Reader x := { ρ with indentLevel := indent }

/-- `cursect[optname].append(value)`. -/
def append (ρ : Reader x) (s value : Str) : Reader x :=
  { ρ with config :=
      ρ.config.put s ρ.optname (((ρ.config.own s ρ.optname).getD []) ++ '\n' :: value) }

/-- The header of a section. -/
def openSection (ρ : Reader x) (lineno : ℕ) (sectname : Str) : Except ReadError (Reader x) :=
  -- no option can be continued in a new section
  if sectname ∈ ρ.config.sections.keys then
    if sectname ∈ ρ.sectionsAdded then .error (.duplicateSection sectname lineno)
    else .ok { ρ with cursect := some sectname, optname := [],
                      sectionsAdded := sectname :: ρ.sectionsAdded }
  else if sectname = defaultSection then .ok { ρ with cursect := some sectname, optname := [] }
  else .ok { ρ with config := ρ.config.ensureSection sectname, cursect := some sectname,
                    optname := [], sectionsAdded := sectname :: ρ.sectionsAdded }

/-- The line of an option, in section `s`. -/
def addOption (ρ : Reader x) (lineno : ℕ) (line s value : Str) : Except ReadError (Reader x) :=
  match option? value with
  -- the error is raised at the end of the file
  | none => .ok { ρ with errors := ρ.errors ++ [(lineno, line)] }
  | some (name, optval) =>
    let errors := if name = [] then ρ.errors ++ [(lineno, line)] else ρ.errors
    let optname := x.lower name
    if (s, optname) ∈ ρ.optionsAdded then .error (.duplicateOption s optname lineno)
    else .ok { ρ with config := ρ.config.put s optname optval, optname := optname,
                      optionsAdded := (s, optname) :: ρ.optionsAdded, errors := errors }

/-- One line of the file. -/
def readLine (ρ : Reader x) (lineno : ℕ) (line : Str) : Except ReadError (Reader x) :=
  let value := strip isSpace line
  if isComment value then .ok ρ
  else if value = [] then
    -- an empty line may belong to a value that goes on
    match ρ.cursect with
    | some s => .ok (if ρ.optname = [] then ρ else ρ.append s [])
    | none => .ok ρ
  else
    let indent := (line.takeWhile isSpace).length
    match ρ.cursect with
    | some s =>
      if ρ.optname ≠ [] ∧ ρ.indentLevel < indent then .ok (ρ.append s value)
      else
        match header? value with
        | some sectname => (ρ.setIndent indent).openSection lineno sectname
        | none => (ρ.setIndent indent).addOption lineno line s value
    | none =>
      match header? value with
      | some sectname => (ρ.setIndent indent).openSection lineno sectname
      | none => .error (.missingSectionHeader lineno line)

/-- The lines of the file, from number `lineno` on. -/
def readLines (ρ : Reader x) (lineno : ℕ) : List Str → Except ReadError (Reader x)
  | [] => .ok ρ
  | line :: lines => (ρ.readLine lineno line).bind fun ρ => ρ.readLines (lineno + 1) lines

/-- A value loses the space at its end. -/
def trimOption (c : Config x) (a : Str × Str) : Config x :=
  match c.own a.1 a.2 with
  | some v => c.put a.1 a.2 (v.rdropWhile isSpace)
  | none => c

/-- `_join_multiline_values`: the values of this file lose the space at their end. -/
def joined (ρ : Reader x) : Config x := ρ.optionsAdded.foldl trimOption ρ.config

/-- What is read, unless there were lines that are no options. -/
def finish (ρ : Reader x) : Except ReadError (Config x) :=
  if ρ.errors = [] then .ok ρ.joined else .error (.parsing ρ.errors)

end Reader

variable {x : OptionXform}

/-- `config.read`, on the text of the file. -/
def readText (c : Config x) (text : Str) : Except ReadError (Config x) :=
  ((Reader.start c).readLines 1 (textLines (universalNewlines text))).bind Reader.finish

/-- `parse_ini_file`, on the text of the file. -/
def parse (x : OptionXform) (text : Str) : Except ReadError (Config x) := readText Config.empty text

/-! ### The writer -/

/-- `_write_section`. -/
def writeSection (name : Str) (items : List (Str × Str)) : Str :=
  "[".toList ++ name ++ "]\n".toList ++
    items.flatMap (fun e =>
      e.1 ++ " = ".toList ++ replaceAll "\n".toList "\n\t".toList e.2 ++ "\n".toList) ++
    "\n".toList

/-- `write_ini_file`, as the text of the file. -/
def write (c : Config x) : Str :=
  (if c.defaults.entries = [] then [] else writeSection defaultSection c.defaults.entries) ++
    c.sections.entries.flatMap fun e => writeSection e.1 e.2.entries

/-! ### Headers -/

theorem header?_of_ne {w s : Str} (h : header? w = some s) : s ≠ [] ∧ ∀ c ∈ s, c ∈ w := by
  unfold header? at h
  split at h
  · next rest =>
    split at h
    · cases h
    · next hne =>
      cases h
      refine ⟨hne, fun c hc => List.mem_cons_of_mem _ ?_⟩
      exact (List.rdropWhile_prefix _ (l := rest)).subset (List.mem_of_mem_dropLast hc)
  · cases h

/-- A line starts a section when it opens a bracket and closes it behind a name. -/
theorem header?_eq_none_iff {w : Str} :
    header? w = none ↔ (w.head? = some '[' → ']' ∉ w.drop 2) := by
  match w with
  | [] => simp [header?]
  | a :: rest =>
    by_cases ha : a = '['
    · subst ha
      -- the brackets that count are those behind the first character of the name
      have hname : (rest.rdropWhile (· ≠ ']')).dropLast = [] ↔ ']' ∉ rest.tail := by
        match rest with
        | [] => simp
        | b :: t =>
          have hcons := Columns.rdropWhile_append (p := fun c => decide (c ≠ ']')) [b] t
          rw [List.singleton_append] at hcons
          rw [hcons, List.tail_cons]
          split
          · next hnil =>
            have hall := List.rdropWhile_eq_nil_iff.mp hnil
            refine ⟨fun _ hmem => by simpa using hall _ hmem, fun _ => ?_⟩
            rw [List.rdropWhile_singleton]
            split <;> rfl
          · next hnil =>
            refine ⟨fun h => ?_, fun h => ?_⟩
            · rw [List.singleton_append, List.dropLast_cons_of_ne_nil hnil] at h
              cases h
            · refine absurd (List.rdropWhile_eq_nil_iff.mpr fun c hc => ?_) hnil
              exact decide_eq_true fun hbracket => h (hbracket ▸ hc)
      have hdrop : ('[' :: rest).drop 2 = rest.tail := by simp
      rw [hdrop, List.head?_cons, ← hname, header?]
      simp only [forall_const]
      split
      · next hnil => simp only [hnil]
      · next hnil => simpa using hnil
    · have hother : header? (a :: rest) = none := by
        unfold header?
        split
        · next heq => exact absurd (List.cons.inj heq).1 ha
        · rfl
      simp [hother, ha]

theorem header?_bracketed {s : Str} (h : s ≠ []) : header? ('[' :: (s ++ [']'])) = some s := by
  rw [header?, List.rdropWhile_concat_neg _ _ _ (by simp), List.dropLast_concat]
  split
  · contradiction
  · rfl

/-! ### What a line does -/

namespace Reader

variable {c : Config x} {ρ ρ' : Reader x} {s : Str} {lineno : ℕ} {line : Str}

/-- The variables fit the configuration: the section that is filled is there, and so are the
option that is continued and everything that has been met. -/
structure Fits (ρ : Reader x) : Prop where
  cursect : ∀ s ∈ ρ.cursect, ρ.config.HasSection s
  optname : ∀ s ∈ ρ.cursect, ρ.optname ≠ [] → ∃ v, ρ.config.own s ρ.optname = some v
  sectionsAdded : ∀ s ∈ ρ.sectionsAdded, s ∈ ρ.config.sections.keys
  optionsAdded : ∀ a ∈ ρ.optionsAdded, ∃ v, ρ.config.own a.1 a.2 = some v

theorem fits_start (c : Config x) : (start c).Fits where
  cursect := fun _ h => by cases h
  optname := fun _ h => by cases h
  sectionsAdded := fun _ h => by cases h
  optionsAdded := fun _ h => by cases h

/-- Storing keeps what is there. -/
theorem exists_own_put {s k v a b w : Str} (hs : c.HasSection s) (h : c.own a b = some w) :
    ∃ w', (c.put s k v).own a b = some w' := by
  rw [Config.own_put hs]
  split
  · exact ⟨v, rfl⟩
  · exact ⟨w, h⟩

/-- What a line of the file may do. -/
inductive Moves (ρ : Reader x) (lineno : ℕ) (line : Str) : Reader x → Prop
  | skip : Moves ρ lineno line ρ
  | append (s value : Str) (hs : ρ.cursect = some s) (hopt : ρ.optname ≠ [])
      (hvalue : value = strip isSpace line ∧ isComment value = false) :
      Moves ρ lineno line (ρ.append s value)
  | openSection (s : Str) (ρ' : Reader x) (hheader : header? (strip isSpace line) = some s)
      (h : (ρ.setIndent (line.takeWhile isSpace).length).openSection lineno s = .ok ρ') :
      Moves ρ lineno line ρ'
  | addOption (s : Str) (ρ' : Reader x) (hs : ρ.cursect = some s)
      (hheader : header? (strip isSpace line) = none)
      (hcomment : isComment (strip isSpace line) = false)
      (h : (ρ.setIndent (line.takeWhile isSpace).length).addOption lineno line s
        (strip isSpace line) = .ok ρ') :
      Moves ρ lineno line ρ'

theorem moves_of_readLine (h : ρ.readLine lineno line = .ok ρ') : Moves ρ lineno line ρ' := by
  unfold readLine at h
  dsimp only at h
  cases hcomment : isComment (strip isSpace line) with
  | true =>
    rw [hcomment, if_pos rfl] at h
    cases h
    exact .skip
  | false =>
    rw [hcomment, if_neg Bool.false_ne_true] at h
    by_cases hnil : strip isSpace line = []
    · rw [if_pos hnil] at h
      cases hs : ρ.cursect with
      | none =>
        rw [hs] at h
        cases h
        exact .skip
      | some s =>
        rw [hs] at h
        cases h
        split
        · exact .skip
        · next hopt => exact .append s [] hs hopt ⟨hnil.symm, rfl⟩
    · rw [if_neg hnil] at h
      cases hs : ρ.cursect with
      | none =>
        rw [hs] at h
        cases hheader : header? (strip isSpace line) with
        | none =>
          rw [hheader] at h
          cases h
        | some s =>
          rw [hheader] at h
          exact .openSection s ρ' hheader h
      | some s =>
        rw [hs] at h
        dsimp only at h
        split at h
        · next hdeep =>
          cases h
          exact .append s _ hs hdeep.1 ⟨rfl, hcomment⟩
        · cases hheader : header? (strip isSpace line) with
          | none =>
            rw [hheader] at h
            exact .addOption s ρ' hs hheader hcomment h
          | some s' =>
            rw [hheader] at h
            exact .openSection s' ρ' hheader h

theorem openSection_eq (ρ : Reader x) (lineno : ℕ) (s : Str) :
    ρ.openSection lineno s =
      if s ∈ ρ.config.sections.keys ∧ s ∈ ρ.sectionsAdded then .error (.duplicateSection s lineno)
      else .ok { ρ with config := ρ.config.ensureSection s, cursect := some s, optname := [],
                        sectionsAdded :=
                          if s = defaultSection then ρ.sectionsAdded
                          else s :: ρ.sectionsAdded } := by
  unfold openSection
  by_cases hmem : s ∈ ρ.config.sections.keys
  · rw [if_pos hmem, Config.ensureSection_of_hasSection (.inr hmem),
      if_neg (ρ.config.names s hmem).1]
    simp only [hmem, true_and]
  · have hno : ¬ (s ∈ ρ.config.sections.keys ∧ s ∈ ρ.sectionsAdded) := fun h => hmem h.1
    rw [if_neg hmem, if_neg hno]
    by_cases hs : s = defaultSection
    · rw [if_pos hs, if_pos hs, Config.ensureSection_of_hasSection (.inl hs)]
    · rw [if_neg hs, if_neg hs]

theorem Fits.append (hρ : ρ.Fits) (hs : ρ.cursect = some s) (v : Str) :
    (ρ.append s v).Fits := by
  have hsec := hρ.cursect s hs
  refine ⟨fun a ha => ?_, fun a ha hne => ?_, fun a ha => ?_, fun a ha => ?_⟩
  · exact (Config.hasSection_put hsec _ _ a).mpr (hρ.cursect a ha)
  · obtain ⟨w, hw⟩ := hρ.optname a ha hne
    exact exists_own_put hsec hw
  · rw [Reader.append, Config.keys_sections_put hsec]
    exact hρ.sectionsAdded a ha
  · obtain ⟨w, hw⟩ := hρ.optionsAdded a ha
    exact exists_own_put hsec hw

theorem Fits.openSection (hρ : ρ.Fits) (hs : s ≠ []) (h : ρ.openSection lineno s = .ok ρ') :
    ρ'.Fits := by
  rw [openSection_eq] at h
  split at h
  · cases h
  · cases h
    refine ⟨fun a ha => ?_, fun a ha hne => absurd rfl hne, fun a ha => ?_, fun a ha => ?_⟩
    · cases ha
      exact Config.hasSection_ensureSection_self _ hs
    · rw [Config.keys_sections_ensureSection _ hs]
      dsimp only at ha
      split at ha
      · next hd => rw [if_pos hd]; exact hρ.sectionsAdded a ha
      · next hd =>
        rw [if_neg hd, Dict.mem_appendKeys, List.mem_singleton]
        rcases List.mem_cons.mp ha with rfl | ha
        · exact .inr rfl
        · exact .inl (hρ.sectionsAdded a ha)
    · obtain ⟨w, hw⟩ := hρ.optionsAdded a ha
      exact ⟨w, (Config.own_ensureSection _ s _ _).trans hw⟩

theorem Fits.addOption {value : Str} (hρ : ρ.Fits) (hs : ρ.cursect = some s)
    (h : ρ.addOption lineno line s value = .ok ρ') : ρ'.Fits := by
  have hsec := hρ.cursect s hs
  unfold Reader.addOption at h
  split at h
  · cases h
    exact ⟨hρ.cursect, hρ.optname, hρ.sectionsAdded, hρ.optionsAdded⟩
  · next name optval _ =>
    dsimp only at h
    split at h
    · cases h
    · cases h
      have hstored : (ρ.config.put s (x.lower name) optval).own s (x.lower name) = some optval := by
        rw [Config.own_put hsec, if_pos ⟨rfl, (x.idem name).symm⟩]
      refine ⟨fun a ha => ?_, fun a ha _ => ?_, fun a ha => ?_, fun a ha => ?_⟩
      · exact (Config.hasSection_put hsec _ _ a).mpr (hρ.cursect a ha)
      · obtain rfl : s = a := Option.some.inj (hs.symm.trans ha)
        exact ⟨optval, hstored⟩
      · dsimp only
        rw [Config.keys_sections_put hsec]
        exact hρ.sectionsAdded a ha
      · rcases List.mem_cons.mp ha with rfl | ha
        · exact ⟨optval, hstored⟩
        · obtain ⟨w, hw⟩ := hρ.optionsAdded a ha
          exact exists_own_put hsec hw

theorem Fits.setIndent (hρ : ρ.Fits) (indent : ℕ) : (ρ.setIndent indent).Fits :=
  ⟨hρ.cursect, hρ.optname, hρ.sectionsAdded, hρ.optionsAdded⟩

/-- The variables fit after a line, when they did before it. -/
theorem Fits.moves (hρ : ρ.Fits) (h : Moves ρ lineno line ρ') : ρ'.Fits := by
  cases h with
  | skip => exact hρ
  | append s value hs _ _ => exact hρ.append hs value
  | openSection s _ hheader h => exact (hρ.setIndent _).openSection (header?_of_ne hheader).1 h
  | addOption s _ hs _ _ h =>
    exact (hρ.setIndent (line.takeWhile isSpace).length).addOption hs h

/-! ### Reading over a configuration -/

/-- The same variables, with the configuration over another one. -/
def onto (c : Config x) (ρ : Reader x) : Reader x := { ρ with config := c.overlay ρ.config }

theorem onto_append (hρ : ρ.Fits) (hs : ρ.cursect = some s) (hopt : ρ.optname ≠ []) (v : Str) :
    (ρ.onto c).append s v = (ρ.append s v).onto c := by
  obtain ⟨w, hw⟩ := hρ.optname s hs hopt
  have hown : (c.overlay ρ.config).own s ρ.optname = ρ.config.own s ρ.optname := by
    rw [Config.own_overlay, hw, Option.some_or]
  simp only [append, onto, hown, Config.overlay_put c (hρ.cursect s hs)]

theorem onto_openSection (hρ : ρ.Fits) (hs : s ≠ []) (lineno : ℕ) :
    (ρ.onto c).openSection lineno s = (ρ.openSection lineno s).map (onto c) := by
  rw [openSection_eq, openSection_eq]
  -- a section that has been met in the file is in both configurations
  by_cases hmet : s ∈ ρ.sectionsAdded
  · have hmem := hρ.sectionsAdded s hmet
    have hover : s ∈ (c.overlay ρ.config).sections.keys := by
      rw [(Config.keys_overlay c ρ.config).1, Dict.mem_appendKeys]
      exact .inr hmem
    rw [if_pos ⟨hover, hmet⟩, if_pos ⟨hmem, hmet⟩]
    rfl
  · have hno : ¬ (s ∈ ρ.config.sections.keys ∧ s ∈ ρ.sectionsAdded) := fun h => hmet h.2
    have hno' : ¬ (s ∈ (ρ.onto c).config.sections.keys ∧ s ∈ (ρ.onto c).sectionsAdded) :=
      fun h => hmet h.2
    rw [if_neg hno, if_neg hno']
    simp only [onto, Except.map, Config.overlay_ensureSection c ρ.config hs]

theorem onto_addOption (hρ : ρ.Fits) (hs : ρ.cursect = some s) (lineno : ℕ) (line value : Str) :
    (ρ.onto c).addOption lineno line s value =
      (ρ.addOption lineno line s value).map (onto c) := by
  unfold addOption
  cases option? value with
  | none => rfl
  | some e =>
    obtain ⟨name, optval⟩ := e
    by_cases hmet : (s, x.lower name) ∈ ρ.optionsAdded
    · simp only [onto, hmet, if_true, Except.map]
    · simp only [onto, hmet, if_false, Except.map, Config.overlay_put c (hρ.cursect s hs)]

theorem onto_readLine (hρ : ρ.Fits) (lineno : ℕ) (line : Str) :
    (ρ.onto c).readLine lineno line = (ρ.readLine lineno line).map (onto c) := by
  have hheader : ∀ s, header? (strip isSpace line) = some s → s ≠ [] :=
    fun s h => (header?_of_ne h).1
  have hindent := hρ.setIndent (line.takeWhile isSpace).length
  have hsame : (ρ.onto c).setIndent (line.takeWhile isSpace).length =
    (ρ.setIndent (line.takeWhile isSpace).length).onto c := rfl
  have hcursect : (ρ.onto c).cursect = ρ.cursect := rfl
  have hoptname : (ρ.onto c).optname = ρ.optname := rfl
  have hlevel : (ρ.onto c).indentLevel = ρ.indentLevel := rfl
  unfold readLine
  dsimp only
  rw [hcursect, hoptname, hlevel, hsame]
  split
  · rfl
  · split
    · cases hs : ρ.cursect with
      | none => rfl
      | some s =>
        dsimp only
        split
        · rfl
        · next hopt => rw [onto_append hρ hs hopt]; rfl
    · cases hs : ρ.cursect with
      | none =>
        dsimp only
        cases hname : header? (strip isSpace line) with
        | none => rfl
        | some s' => exact onto_openSection hindent (hheader s' hname) lineno
      | some s =>
        dsimp only
        split
        · next hdeep => rw [onto_append hρ hs hdeep.1]; rfl
        · cases hname : header? (strip isSpace line) with
          | none => exact onto_addOption hindent hs lineno line _
          | some s' => exact onto_openSection hindent (hheader s' hname) lineno

theorem onto_readLines (hρ : ρ.Fits) (lineno : ℕ) (lines : List Str) :
    (ρ.onto c).readLines lineno lines = (ρ.readLines lineno lines).map (onto c) := by
  induction lines generalizing ρ lineno with
  | nil => rfl
  | cons line lines ih =>
    rw [readLines, readLines, onto_readLine hρ]
    cases h : ρ.readLine lineno line with
    | error e => rfl
    | ok ρ' => exact ih (hρ.moves (moves_of_readLine h)) (lineno + 1)

/-! ### The end of a file -/

theorem keys_trimOption (c : Config x) (a : Str × Str) :
    (trimOption c a).sections.keys = c.sections.keys ∧
      ∀ s, (trimOption c a).ownKeys s = c.ownKeys s := by
  unfold trimOption
  split
  · next v hv =>
    have hs := Config.hasSection_of_own hv
    refine ⟨Config.keys_sections_put hs _ _, fun s => ?_⟩
    rw [Config.ownKeys_put hs]
    split
    · next has =>
      rw [has, Config.lower_of_own hv]
      refine Dict.appendKeys_of_subset fun k hk => ?_
      rw [List.mem_singleton.mp hk, Config.mem_ownKeys]
      exact ⟨v, hv⟩
    · rfl
  · exact ⟨rfl, fun _ => rfl⟩

theorem own_trimOption (c : Config x) (a : Str × Str) (s k : Str) :
    (trimOption c a).own s k =
      if (s, k) = a then (c.own s k).map (·.rdropWhile isSpace) else c.own s k := by
  obtain ⟨a, b⟩ := a
  unfold trimOption
  dsimp only
  cases hv : c.own a b with
  | none =>
    dsimp only
    split
    · next heq =>
      cases heq
      rw [hv]
      rfl
    · rfl
  | some v =>
    dsimp only
    rw [Config.own_put (Config.hasSection_of_own hv), Config.lower_of_own hv]
    simp only [Prod.mk.injEq]
    split
    · next heq =>
      obtain ⟨rfl, rfl⟩ := heq
      rw [hv]
      rfl
    · rfl

theorem keys_foldl_trimOption (l : List (Str × Str)) (c : Config x) :
    (l.foldl trimOption c).sections.keys = c.sections.keys ∧
      ∀ s, (l.foldl trimOption c).ownKeys s = c.ownKeys s := by
  induction l generalizing c with
  | nil => exact ⟨rfl, fun _ => rfl⟩
  | cons a l ih =>
    obtain ⟨hsec, hkeys⟩ := keys_trimOption c a
    obtain ⟨hsec', hkeys'⟩ := ih (trimOption c a)
    exact ⟨hsec'.trans hsec, fun s => (hkeys' s).trans (hkeys s)⟩

theorem own_foldl_trimOption (l : List (Str × Str)) (c : Config x) (s k : Str) :
    (l.foldl trimOption c).own s k =
      if (s, k) ∈ l then (c.own s k).map (·.rdropWhile isSpace) else c.own s k := by
  induction l generalizing c with
  | nil => rfl
  | cons a l ih =>
    rw [List.foldl_cons, ih, own_trimOption]
    by_cases ha : (s, k) = a
    · have hmem : (s, k) ∈ a :: l := ha ▸ List.mem_cons_self
      rw [if_pos ha, if_pos hmem, Option.map_map]
      split
      · -- trimming twice is trimming once
        congr 1
        funext v
        exact List.rdropWhile_idempotent isSpace v
      · rfl
    · simp only [List.mem_cons, ha, false_or, if_false]

theorem own_joined (ρ : Reader x) (s k : Str) :
    ρ.joined.own s k =
      if (s, k) ∈ ρ.optionsAdded then (ρ.config.own s k).map (·.rdropWhile isSpace)
      else ρ.config.own s k := own_foldl_trimOption _ _ s k

theorem joined_onto (hρ : ρ.Fits) : (ρ.onto c).joined = c.overlay ρ.joined := by
  obtain ⟨hsec, hkeys⟩ := keys_foldl_trimOption ρ.optionsAdded ρ.config
  obtain ⟨hsec', hkeys'⟩ := keys_foldl_trimOption ρ.optionsAdded (c.overlay ρ.config)
  refine Config.eq_of_own ?_ (fun s => ?_) fun s k => ?_
  · rw [(Config.keys_overlay c ρ.joined).1]
    exact hsec'.trans ((Config.keys_overlay c ρ.config).1.trans (by rw [← hsec]; rfl))
  · rw [(Config.keys_overlay c ρ.joined).2]
    exact (hkeys' s).trans (((Config.keys_overlay c ρ.config).2 s).trans (by rw [← hkeys]; rfl))
  · rw [Config.own_overlay, own_joined, own_joined]
    have hover : (ρ.onto c).config.own s k = (ρ.config.own s k).or (c.own s k) :=
      Config.own_overlay c ρ.config s k
    have hadded : (ρ.onto c).optionsAdded = ρ.optionsAdded := rfl
    rw [hover, hadded]
    split
    · next hmem =>
      -- what has been met in the file has a value in it
      obtain ⟨v, hv⟩ := hρ.optionsAdded _ hmem
      rw [hv]
      rfl
    · rfl

theorem finish_onto (hρ : ρ.Fits) : (ρ.onto c).finish = ρ.finish.map c.overlay := by
  have herrors : (ρ.onto c).errors = ρ.errors := rfl
  unfold finish
  rw [herrors, joined_onto hρ]
  split <;> rfl

theorem Fits.readLines {lines : List Str} (hρ : ρ.Fits) (h : ρ.readLines lineno lines = .ok ρ') :
    ρ'.Fits := by
  induction lines generalizing ρ lineno with
  | nil =>
    cases h
    exact hρ
  | cons line lines ih =>
    rw [Reader.readLines] at h
    cases hline : ρ.readLine lineno line with
    | error e =>
      rw [hline] at h
      cases h
    | ok ρ₁ =>
      rw [hline] at h
      exact ih (hρ.moves (moves_of_readLine hline)) h

end Reader

/-- **Reading a text over a configuration** is reading it alone, and then laying what has been
read over the configuration. -/
theorem readText_eq (c : Config x) (text : Str) :
    readText c text = (parse x text).map c.overlay := by
  have hfits := Reader.fits_start (Config.empty : Config x)
  have hstart : Reader.start c = (Reader.start Config.empty).onto c := by
    have hnothing : c.overlay Config.empty = c := Config.overlay_empty c
    rw [Reader.onto, Reader.start, Reader.start, hnothing]
  rw [parse, readText, readText, hstart, Reader.onto_readLines hfits]
  cases h : (Reader.start Config.empty).readLines 1 (textLines (universalNewlines text)) with
  | error e => rfl
  | ok ρ => exact Reader.finish_onto (hfits.readLines h)

end Ini
end Dfuser
