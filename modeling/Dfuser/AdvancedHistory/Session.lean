import Mathlib.Data.List.Flatten
import Dfuser.AdvancedHistory

/-!
# The file of commands

Every prompt of every shell appends to one file, `~/.bash_history_with_json`.  Who reads it goes
through its lines and takes those that are records: objects with a command, a directory and a
status.

What is appended for a command can be any text: with the names of files in it, a line that is
no object, or more than one line.  But it starts at the start of a line and ends with one, so
it does nothing to what is appended for other commands.

## Main definitions

* `readRecord`, `records` — the records of a line and of a file.
* `Turn` — a prompt, and where it is printed.
* `afterTurns` — the file after some prompts.

## Main results

* `linesEnd_appended` — what is appended ends its line.
* `records_afterTurns` — the records of a file are those of what has been appended.
* `records_harmless` — **whatever is appended in between, the commands that come back are in the
  file, in their order; and nothing else is when all of them do.**
-/

namespace Dfuser
namespace AdvancedHistory

open Json (escapeQuotes)

/-! ### Reading and writing the file -/

/-- What is read of a command. -/
structure Record where
  command : Str
  directory : Str
  status : Str
  deriving DecidableEq, Repr

/-- The record on a line, if it is one. -/
def readRecord (line : Str) : Option Record :=
  match Json.parse line with
  | some (.object members) =>
    match member? members "command".toList, member? members "directory".toList,
      member? members "status".toList with
    | some (.string command), some (.string directory), some (.number status) =>
      some ⟨command, directory, status⟩
    | _, _, _ => none
  | _ => none

/-- The records of a file, line by line. -/
def records (file : Str) : List Record :=
  (textLines file).filterMap fun line => readRecord (line ++ ['\n'])

/-- A prompt, with the files there are and the working directory. -/
structure Turn where
  fs : FileSystem
  dir : Path
  prompt : Prompt

/-- The record of a prompt. -/
def Turn.record (t : Turn) : Record :=
  ⟨t.prompt.command.text, t.prompt.directory.text, t.prompt.statusText⟩

section File

variable (E : Escapes)

/-- What a prompt appends. -/
def Turn.appended (t : Turn) : Str := AdvancedHistory.appended E t.fs t.dir t.prompt

/-- The file after some prompts, of one shell or of several in any order. -/
def afterTurns (file : Str) (turns : List Turn) : Str :=
  turns.foldl (fun file t => file ++ t.appended E) file

/-! ### Lines -/

/-- The object starts with a word of its own, no option and no pattern. -/
theorem head?_expandWords_jsonObj (fs : FileSystem) (dir : Path) (p : Prompt) :
    (expandWords fs dir (jsonObj E fs dir p)).head? = some "\x7b\"command\":".toList := by
  obtain ⟨rest, hrest⟩ : ∃ rest, jsonObj E fs dir p = "\x7b\"command\":".toList ++ ' ' :: rest := by
    generalize hx : quoted E fs dir (lastCommand p) = x
    generalize hy : quoted E fs dir (chomp (p.directory.text ++ ['\n'])) = y
    have hlast := getLast?_recordText x p.statusText y p.timestamp.text
    have hobj : jsonObj E fs dir p = recordText x p.statusText y p.timestamp.text := by
      obtain ⟨text, htext⟩ := List.getLast?_eq_some_iff.mp hlast
      rw [jsonObj, hx, hy, chomp_concat, htext, chomp_concat_of_ne (by decide)]
    rw [hobj, recordText_eq]
    exact ⟨_, rfl⟩
  have hliteral : Literal "\x7b\"command\":".toList := by decide
  rw [hrest, expandWords_append_cons (by decide),
    expandWords_of_literal (by decide) hliteral]
  rfl

/-- **What is appended ends its line.** -/
theorem linesEnd_appended (t : Turn) : LinesEnd (t.appended E) := by
  right
  have hhead : ∀ w ∈ (expandWords t.fs t.dir (jsonObj E t.fs t.dir t.prompt)).head?,
      isEchoOption w = false := by
    intro w hw
    rw [head?_expandWords_jsonObj, Option.mem_some_iff] at hw
    subst hw
    decide
  rw [Turn.appended, appended, echo_of_head hhead, List.getLast?_concat]

theorem records_append {s : Str} (hs : LinesEnd s) (t : Str) :
    records (s ++ t) = records s ++ records t := by
  rw [records, textLines_append hs, List.filterMap_append]
  rfl

/-- The records of a file are those of what has been appended. -/
theorem records_afterTurns {file : Str} (hfile : LinesEnd file) (turns : List Turn) :
    records (afterTurns E file turns) =
      records file ++ turns.flatMap fun t => records (t.appended E) := by
  induction turns generalizing file with
  | nil => rw [List.flatMap_nil, List.append_nil, afterTurns, List.foldl_nil]
  | cons t turns ih =>
    have hnext : LinesEnd (file ++ t.appended E) := linesEnd_append hfile (linesEnd_appended E t)
    rw [afterTurns, List.foldl_cons, List.flatMap_cons, ← List.append_assoc,
      ← records_append hfile]
    exact ih hnext

/-! ### Commands that come back -/

theorem newline_notMem_escapeQuotes {s : Str} (h : '\n' ∉ s) : '\n' ∉ escapeQuotes s := by
  intro hmem
  obtain ⟨c, hc, hmem⟩ := List.mem_flatMap.mp hmem
  split at hmem
  · revert hmem
    decide
  · rw [List.mem_singleton.mp hmem] at h
    exact h hc

/-- The object of texts without a newline is on one line. -/
theorem newline_notMem_recordText {command status directory timestamp : Str}
    (hcommand : '\n' ∉ command) (hstatus : '\n' ∉ status) (hdirectory : '\n' ∉ directory)
    (htime : '\n' ∉ timestamp) : '\n' ∉ recordText command status directory timestamp := by
  unfold recordText
  simp only [List.mem_append, not_or]
  exact ⟨⟨⟨⟨⟨⟨⟨⟨by decide, hcommand⟩, by decide⟩, hstatus⟩, by decide⟩, hdirectory⟩, by decide⟩,
    htime⟩, by decide⟩

/-- **A harmless command is one record.** -/
theorem records_appended {t : Turn} (h : Harmless t.prompt) :
    records (t.appended E) = [t.record] := by
  obtain ⟨hcommand, hcommand'⟩ := h.command.printed_eq E
  obtain ⟨hdirectory, hdirectory'⟩ := h.directory.printed_eq E
  have hline := appended_eq E t.fs t.dir t.prompt
  rw [hcommand, hcommand', hdirectory, hdirectory'] at hline
  have hstatus : '\n' ∉ t.prompt.statusText := fun hmem =>
    absurd (Nat.isDigit_of_mem_toDigits (by decide) (by decide) hmem) (by decide)
  have htime : '\n' ∉ t.prompt.timestamp.text := fun hmem =>
    absurd (List.all_eq_true.mp t.prompt.timestamp.plain _ hmem) (by decide)
  have hlines := textLines_unlines (List.forall_mem_singleton.mpr (newline_notMem_recordText
    (newline_notMem_escapeQuotes t.prompt.command.newline_notMem) hstatus
    (newline_notMem_escapeQuotes t.prompt.directory.newline_notMem) htime))
  have hparse := parse_recordText (isNatural_statusText t.prompt) t.prompt.timestamp.plain
    h.command.backslash_notMem h.command.printable h.directory.backslash_notMem
    h.directory.printable
  obtain ⟨hmember, hmember', hmember''⟩ := member?_membersOf t.prompt.command.text
    t.prompt.statusText t.prompt.directory.text t.prompt.timestamp.text
  rw [unlines, List.flatMap_singleton] at hlines
  rw [Turn.appended, hline fun w hw => h.inert w hw t.fs t.dir, records, hlines,
    List.filterMap_cons_some (b := t.record), List.filterMap_nil]
  simp only [readRecord, hparse, hmember, hmember', hmember'']
  rfl

/-- **Commands that come back are in the file**, whatever is appended for other commands, and in
the order in which they were given.  When all commands do, their records are all that is new. -/
theorem records_harmless {file : Str} (hfile : LinesEnd file) (turns : List Turn) :
    (∀ good : List Turn, good.Sublist turns → (∀ t ∈ good, Harmless t.prompt) →
      (records file ++ good.map Turn.record).Sublist (records (afterTurns E file turns))) ∧
    ((∀ t ∈ turns, Harmless t.prompt) →
      records (afterTurns E file turns) = records file ++ turns.map Turn.record) := by
  have hgood : ∀ good : List Turn, (∀ t ∈ good, Harmless t.prompt) →
      (good.flatMap fun t => records (t.appended E)) = good.map Turn.record := by
    intro good h
    rw [List.map_eq_flatMap]
    exact List.flatMap_congr fun t ht => records_appended E (h t ht)
  rw [records_afterTurns E hfile]
  constructor
  · intro good hsub h
    rw [← hgood good h]
    exact (hsub.flatMap _).append_left _
  · intro h
    rw [hgood turns h]

end File

/-- `ls` in `/tmp`. -/
def listing : Prompt :=
  { grepDot with number := 2, command := ⟨"ls".toList, by decide, by decide⟩ }

theorem harmless_listing : Harmless listing := by
  have hwords : ∀ w ∈ fields isBlank listing.command.text ++ fields isBlank listing.directory.text ++
      fields isBlank (recordText (escapeQuotes listing.command.text) listing.statusText
        (escapeQuotes listing.directory.text) listing.timestamp.text),
      w.any isSpecial = false := by decide +kernel
  have hprintable : ∀ s : Str, s.all (32 ≤ ·.toNat) = true → ∀ c ∈ s, 32 ≤ c.toNat :=
    fun s hs c hc => of_decide_eq_true (List.all_eq_true.mp hs c hc)
  refine ⟨⟨by decide, by decide, hprintable _ (by decide), by decide⟩,
    ⟨by decide, by decide, hprintable _ (by decide), by decide⟩, fun w hw fs dir => ?_⟩
  rw [glob, hwords w hw]
  rfl

/-- A command that spoils its own line is between two that come back. -/
theorem records_harmless_listing :
    let turns : List Turn := [⟨.empty, [], listing⟩, ⟨.empty, [], grepDot⟩, ⟨.empty, [], listing⟩]
    [listing, listing].map (fun p => Turn.record ⟨.empty, [], p⟩) |>.Sublist
      (records (afterTurns noEscapes [] turns)) := by
  refine (records_harmless noEscapes (.inl rfl) _).1
    [⟨.empty, [], listing⟩, ⟨.empty, [], listing⟩] (.cons_cons _ (.cons _ (.cons_cons _ .slnil))) ?_
  intro t ht
  have heq : t = ⟨.empty, [], listing⟩ := by simpa using ht
  rw [heq]
  exact harmless_listing

end AdvancedHistory
end Dfuser
