import Dfuser.History.Runs

/-!
# The shapes of a history line

Which command a line is filed under, and with which flag, depends on the shape of
the line: a history reference, a line that starts with the letters `sudo`, or any
other line.  This module reads the two intentions of `process_line` against these
shapes: that common commands are ignored, and that the `sudo` flag is about lines
run by `sudo`.  Both fail, for the same lines in every run: the ignore list is
searched for a pair, and `sudo` is matched as a prefix of the line rather than as
its first word.

## Main definitions

* `RunsIgnored` — the line runs a command of the ignore list.
* `RunsBySudo`, `MerelyStartsWithSudo` — the line is `sudo c …`; the line starts
  with the letters only.
* `Completes` — every file is read and the database is saved.

## Main results

* `getCommandFromLine_eq_ok_iff` — every shape of line and what it is read as.
* `processFiles_classified_iff` — **when the database is classified as intended.**
* `completes_iff` — **when a run saves**: no line is made of white space only.
-/

namespace Dfuser
namespace History

/-! ### Every shape of line -/

/-- The line is read as command `c`, by its shape. -/
inductive ReadsAs (line c : Str) : Bool → Prop
  /-- A history reference: all that follows the bang, its newline included. -/
  | bang (h : line = '!' :: c) : ReadsAs line c false
  /-- The letters `sudo`, at the start of a line of several words. -/
  | underSudo {w : Str} {rest : List Str} (hs : startsWithSudo line = true)
      (h : split line = w :: c :: rest) : ReadsAs line c true
  /-- The letters `sudo`, at the start of the only word. -/
  | sudoAlone (hs : startsWithSudo line = true) (h : split line = [c]) : ReadsAs line c true
  /-- Any other line. -/
  | plain {rest : List Str} (hb : line.head? ≠ some '!') (hs : startsWithSudo line = false)
      (h : split line = c :: rest) : ReadsAs line c false

theorem head?_ne_bang_of_startsWithSudo {line : Str} (h : startsWithSudo line = true) :
    line.head? ≠ some '!' := by
  obtain ⟨t, rfl⟩ := List.isPrefixOf_iff_prefix.mp h
  have hhead : "sudo".toList.head? = some 's' := rfl
  rw [List.head?_append, hhead]
  simp

theorem getCommandFromLine_of_head?_ne_bang {line : Str} (h : line.head? ≠ some '!') :
    getCommandFromLine line =
      match startsWithSudo line, split line with
      | true, _ :: command :: _ => .ok (command, true)
      | asSudo, command :: _ => .ok (command, asSudo)
      | _, [] => .error .indexError := by
  unfold getCommandFromLine
  split
  · simp at h
  · rfl

/-- **Reading a line.**  The shape of a line decides its command and its flag. -/
theorem getCommandFromLine_eq_ok_iff (line c : Str) (b : Bool) :
    getCommandFromLine line = .ok (c, b) ↔ ReadsAs line c b := by
  constructor
  · intro h
    by_cases hb : line.head? = some '!'
    · obtain ⟨rest, rfl⟩ := List.head?_eq_some_iff.mp hb
      cases h
      exact .bang rfl
    · rw [getCommandFromLine_of_head?_ne_bang hb] at h
      split at h
      · next hs hw => cases h; exact .underSudo hs hw
      · next rest hw hone =>
        cases h
        cases hs : startsWithSudo line with
        | false => exact .plain hb hs hw
        | true =>
          -- a second word would have been taken by the first branch
          cases rest with
          | nil => exact .sudoAlone hs hw
          | cons d ds => exact (hone d ds hs rfl).elim
      · cases h
  · intro h
    cases h with
    | bang h => subst h; rfl
    | underSudo hs h =>
      rw [getCommandFromLine_of_head?_ne_bang (head?_ne_bang_of_startsWithSudo hs), hs, h]
    | sudoAlone hs h =>
      rw [getCommandFromLine_of_head?_ne_bang (head?_ne_bang_of_startsWithSudo hs), hs, h]
    | plain hb hs h => rw [getCommandFromLine_of_head?_ne_bang hb, hs, h]

theorem keyOf_eq_some_iff (line c : Str) (b : Bool) :
    keyOf line = some (c, b) ↔ isCommentOrContinuation line = false ∧ ReadsAs line c b := by
  rw [← getCommandFromLine_eq_ok_iff, keyOf, lineKey]
  cases getCommandFromLine line with
  | error e => simp [Except.map]
  | ok result => cases isCommentOrContinuation line <;> simp [Except.map]

theorem ReadsAs.flag_eq {line c : Str} {b : Bool} (h : ReadsAs line c b) :
    b = startsWithSudo line := by
  cases h with
  | bang h =>
    cases hs : startsWithSudo line with
    | false => rfl
    | true => exact absurd (by rw [h]; rfl) (head?_ne_bang_of_startsWithSudo hs)
  | underSudo hs _ => exact hs.symm
  | sudoAlone hs _ => exact hs.symm
  | plain _ hs _ => exact hs.symm

/-- The flag of a recorded line only looks at its first four letters. -/
theorem sudoOf_of_keyOf {line c : Str} {b : Bool} (h : keyOf line = some (c, b)) :
    sudoOf line = startsWithSudo line := by
  rw [sudoOf, h]
  exact ((keyOf_eq_some_iff line c b).mp h).2.flag_eq

theorem mem_linesOf_iff {c line : Str} {lines : List Str} :
    line ∈ linesOf c lines ↔ line ∈ lines ∧ ∃ b, keyOf line = some (c, b) := by
  simp [linesOf, Option.map_eq_some_iff]

/-! ### What the two intentions ask of a line -/

/-- The line runs a command of the ignore list: as a history reference, as its
first word, or as the word after one that starts with `sudo`. -/
def RunsIgnored (line : Str) : Prop :=
  isCommentOrContinuation line = false ∧
    ∃ c ∈ commonCommandIgnoreList,
      line = '!' :: c ∨
      (line.head? ≠ some '!' ∧ startsWithSudo line = false ∧ (split line)[0]? = some c) ∨
      (startsWithSudo line = true ∧ (split line)[1]? = some c)

instance (line : Str) : Decidable (RunsIgnored line) := inferInstanceAs (Decidable (_ ∧ _))

/-- The line is `sudo c …`: `sudo` is its whole first word and `c` its second. -/
def RunsBySudo (c line : Str) : Prop :=
  (split line)[0]? = some "sudo".toList ∧ (split line)[1]? = some c

/-- The line starts with the letters `sudo`, but its first word is another one
(`sudoedit f`) or its only one (`sudo`). -/
def MerelyStartsWithSudo (line : Str) : Prop :=
  startsWithSudo line = true ∧
    ((split line)[0]? ≠ some "sudo".toList ∨ (split line)[1]? = none)

theorem startsWithSudo_of_split {line c : Str} {rest : List Str} (hs : startsWithSudo line = true)
    (h : split line = c :: rest) : startsWithSudo c = true := by
  obtain ⟨t, rfl⟩ := List.isPrefixOf_iff_prefix.mp hs
  have hletters : ∀ c ∈ "sudo".toList, isSpace c = false := by
    have hnone : "sudo".toList.all (fun c => !isSpace c) = true := by decide
    simpa only [List.all_eq_true, Bool.not_eq_true'] using hnone
  obtain ⟨w, ws, hw, hpre⟩ := fields_of_prefix (by decide) hletters
    (List.prefix_append "sudo".toList t)
  rw [split, hw] at h
  cases h
  exact List.isPrefixOf_iff_prefix.mpr hpre

/-- No command of the ignore list starts with `sudo`. -/
theorem startsWithSudo_of_mem_commonCommandIgnoreList {c : Str}
    (h : c ∈ commonCommandIgnoreList) : startsWithSudo c = false := by
  revert c
  decide

theorem runsIgnored_iff (line : Str) :
    RunsIgnored line ↔ ∃ c ∈ commonCommandIgnoreList, ∃ b, keyOf line = some (c, b) := by
  simp only [keyOf_eq_some_iff, RunsIgnored]
  constructor
  · rintro ⟨hskip, c, hc, h⟩
    refine ⟨c, hc, ?_⟩
    rcases h with h | ⟨hb, hs, h⟩ | ⟨hs, h⟩
    · exact ⟨false, hskip, .bang h⟩
    · obtain ⟨rest, hrest⟩ := List.head?_eq_some_iff.mp (List.head?_eq_getElem? ▸ h)
      exact ⟨false, hskip, .plain hb hs hrest⟩
    · cases hw : split line with
      | nil => simp [hw] at h
      | cons w ws =>
        rw [hw, List.getElem?_cons_succ, ← List.head?_eq_getElem?] at h
        obtain ⟨rest, rfl⟩ := List.head?_eq_some_iff.mp h
        exact ⟨true, hskip, .underSudo hs hw⟩
  · rintro ⟨c, hc, b, hskip, h⟩
    refine ⟨hskip, c, hc, ?_⟩
    cases h with
    | bang h => exact .inl h
    | underSudo hs h => exact .inr (.inr ⟨hs, by rw [h]; rfl⟩)
    | sudoAlone hs h =>
      -- the only word starts with `sudo`, so it is not in the list
      have := startsWithSudo_of_split hs h
      rw [startsWithSudo_of_mem_commonCommandIgnoreList hc] at this
      cases this
    | plain hb hs h => exact .inr (.inl ⟨hb, hs, by rw [h]; rfl⟩)

/-- A line that starts with `sudo` and is recorded under `c` either is `sudo c …`
or merely starts with the letters. -/
theorem runsBySudo_of_not_merely {line c : Str} {b : Bool} (h : keyOf line = some (c, b))
    (hs : startsWithSudo line = true) (hnot : ¬ MerelyStartsWithSudo line) : RunsBySudo c line := by
  have hread := ((keyOf_eq_some_iff line c b).mp h).2
  simp only [MerelyStartsWithSudo, hs, true_and, not_or, not_not] at hnot
  refine ⟨hnot.1, ?_⟩
  cases hread with
  | bang hline => exact absurd (by rw [hline]; rfl) (head?_ne_bang_of_startsWithSudo hs)
  | underSudo _ hw => rw [hw]; rfl
  | sudoAlone _ hw => exact absurd (by rw [hw]; rfl) hnot.2
  | plain _ hs' _ => rw [hs] at hs'; cases hs'

/-! ### Databases classified as intended -/

/-- The database is classified as intended by the lines it was built from: no
command of the ignore list is a key, and a flag is set only if some line recorded
under the command is `sudo` and that command. -/
def Classified (db : Database) (lines : List Str) : Prop :=
  (∀ c ∈ commonCommandIgnoreList, c ∉ db.keys) ∧
    ∀ c r, db.get? c = some r → r.runAsSudo = true →
      ∃ line ∈ lines, (∃ b, keyOf line = some (c, b)) ∧ RunsBySudo c line

/-- A command is a key exactly when some line was recorded under it. -/
theorem mem_keys_foldl_record_iff (lines : List Str) (c : Str) :
    c ∈ (lines.foldl record Dict.empty).keys ↔ ∃ line ∈ lines, ∃ b, keyOf line = some (c, b) := by
  have hview := view_foldl_record Dict.empty lines c
  rw [Dict.mem_keys_iff]
  constructor
  · rintro ⟨r, hr⟩
    obtain ⟨line, hline⟩ := List.exists_mem_of_ne_nil _ (record_of_foldl_empty hr).1
    exact ⟨line, (mem_linesOf_iff.mp hline).1, (mem_linesOf_iff.mp hline).2⟩
  · rintro ⟨line, hline, b, hkey⟩
    have hmem : line ∈ linesOf c lines := mem_linesOf_iff.mpr ⟨hline, b, hkey⟩
    cases hlast : (linesOf c lines).getLast? with
    | none => rw [List.getLast?_eq_none_iff.mp hlast] at hmem; cases hmem
    | some l =>
      rw [Entry.extend, hlast, view] at hview
      obtain ⟨r, hr, -⟩ := Option.map_eq_some_iff.mp hview
      exact ⟨r, hr⟩

/-- The flag of a command is that of the last line recorded under it. -/
theorem runAsSudo_of_foldl_empty {lines : List Str} {c l : Str}
    (hlast : (linesOf c lines).getLast? = some l) :
    ∃ r, (lines.foldl record Dict.empty).get? c = some r ∧ r.runAsSudo = startsWithSudo l := by
  have hview := view_foldl_record Dict.empty lines c
  obtain ⟨b, hkey⟩ := (mem_linesOf_iff.mp (List.mem_of_getLast? hlast)).2
  rw [Entry.extend, hlast, view] at hview
  obtain ⟨r, hr, hentry⟩ := Option.map_eq_some_iff.mp hview
  refine ⟨r, hr, ?_⟩
  rw [← sudoOf_of_keyOf hkey]
  exact congrArg Entry.runAsSudo hentry

/-- **When the database is classified as intended.**  After a run from the empty
database this is so exactly when no line runs a command of the ignore list and
every command whose last line merely starts with the letters `sudo` also has a line
that is really run by `sudo`. -/
theorem processFiles_classified_iff {files : List (List Str)} {db : Database}
    {stats : List HistoryStats} (h : processFiles Dict.empty files = .ok (db, stats)) :
    Classified db files.flatten ↔
      (∀ line ∈ files.flatten, ¬ RunsIgnored line) ∧
      ∀ c line, (linesOf c files.flatten).getLast? = some line → MerelyStartsWithSudo line →
        ∃ l ∈ linesOf c files.flatten, RunsBySudo c l := by
  have hread := readable_of_processFiles allSets_empty h
  rw [processFiles_of_readable allSets_empty hread] at h
  cases h
  refine and_congr ?_ ?_
  · simp only [runsIgnored_iff, mem_keys_foldl_record_iff]
    exact ⟨fun h line hline ⟨c, hc, b, hkey⟩ => h c hc ⟨line, hline, b, hkey⟩,
      fun h c hc ⟨line, hline, b, hkey⟩ => h line hline ⟨c, hc, b, hkey⟩⟩
  · constructor
    · intro h c line hlast hmere
      obtain ⟨r, hr, hflag⟩ := runAsSudo_of_foldl_empty hlast
      obtain ⟨l, hl, hkey, hsudo⟩ := h c r hr (hflag.trans hmere.1)
      exact ⟨l, mem_linesOf_iff.mpr ⟨hl, hkey⟩, hsudo⟩
    · intro h c r hr hflag
      obtain ⟨l, hlast⟩ :=
        List.getLast?_isSome.mpr (record_of_foldl_empty hr).1 |> Option.isSome_iff_exists.mp
      obtain ⟨r', hr', hflag'⟩ := runAsSudo_of_foldl_empty hlast
      have hrr : r' = r := Option.some.inj (hr'.symm.trans hr)
      subst hrr
      obtain ⟨hl, b, hkey⟩ := mem_linesOf_iff.mp (List.mem_of_getLast? hlast)
      by_cases hmere : MerelyStartsWithSudo l
      · obtain ⟨l', hl', hsudo⟩ := h c l hlast hmere
        exact ⟨l', (mem_linesOf_iff.mp hl').1, (mem_linesOf_iff.mp hl').2, hsudo⟩
      · exact ⟨l, hl, ⟨b, hkey⟩, runsBySudo_of_not_merely hkey (hflag'.symm.trans hflag) hmere⟩

/-- After `sudoedit f` and `sudo f`, the flag of `f` is as intended. -/
theorem processFiles_classified_iff_sudoedit :
    ∃ db stats, processFiles Dict.empty [["sudo f\n".toList, "sudoedit f\n".toList]] =
      .ok (db, stats) ∧ Classified db ["sudo f\n".toList, "sudoedit f\n".toList] := by
  refine ⟨_, _, rfl,
    (@processFiles_classified_iff [["sudo f\n".toList, "sudoedit f\n".toList]] _ _ rfl).mpr
      ⟨by decide, ?_⟩⟩
  intro c line hlast _
  obtain ⟨hmem, b, hkey⟩ := mem_linesOf_iff.mp (List.mem_of_getLast? hlast)
  -- both lines are recorded under `f`
  have hc : c = "f".toList := by
    rcases List.mem_pair.mp hmem with rfl | rfl
    · exact (congrArg Prod.fst (Option.some.inj hkey)).symm
    · exact (congrArg Prod.fst (Option.some.inj hkey)).symm
  subst hc
  exact ⟨"sudo f\n".toList, by decide, by decide, by decide⟩

/-- The ignore list ignores nothing, not even `ls`. -/
theorem classified_fails_on_ls :
    ∃ db stats, processFiles Dict.empty [["ls\n".toList]] = .ok (db, stats) ∧
      ¬ Classified db ["ls\n".toList] :=
  ⟨_, _, rfl, fun h => h.1 "ls".toList (by decide) (by decide)⟩

/-! ### Lines without a command

`process_line` means to skip a line it finds no command in, but
`get_command_from_line` has no such answer: it takes the first word of any line that
is not a history reference. -/

/-- The files are read one after another without an exception, and the run gets as
far as saving the database. -/
def Completes (o : SetOrder) (file : Option DatabaseFile) (files : List (List Str)) : Prop :=
  (∀ before lines after, files = before ++ lines :: after →
    ∃ db stats result, processFiles (readDatabase file).1 before = .ok (db, stats) ∧
      processHistoryFile db lines = .ok result) ∧
  ∃ written, main o file files = .ok written

/-- Only a line of white space has no first word. -/
theorem readable_iff (line : Str) : Readable line ↔ ∃ c ∈ line, isSpace c = false := by
  have hwords : split line = [] ↔ ∀ c ∈ line, isSpace c = true := fields_eq_nil_iff
  constructor
  · rintro ⟨key, hkey⟩
    by_contra hnone
    have hspace : ∀ c ∈ line, isSpace c = true := by
      intro c hc
      by_contra h
      exact hnone ⟨c, hc, by simpa using h⟩
    have hbang : line.head? ≠ some '!' := by
      intro h
      have := hspace '!' (List.mem_of_mem_head? h)
      exact absurd this (by decide)
    rw [lineKey, getCommandFromLine_of_head?_ne_bang hbang, hwords.mpr hspace] at hkey
    cases hs : startsWithSudo line
    · rw [hs] at hkey; cases hkey
    · rw [hs] at hkey; cases hkey
  · rintro ⟨c, hc, hword⟩
    by_contra hnot
    have herror := lineKey_of_not_readable hnot
    have hb : line.head? ≠ some '!' := by
      intro h
      obtain ⟨rest, rfl⟩ := List.head?_eq_some_iff.mp h
      exact hnot ⟨_, rfl⟩
    have hne : split line ≠ [] := fun hnil => by simp [hwords.mp hnil c hc] at hword
    obtain ⟨w, rest, hw⟩ := List.exists_cons_of_ne_nil hne
    rw [lineKey, getCommandFromLine_of_head?_ne_bang hb, hw] at herror
    cases hs : startsWithSudo line with
    | false => rw [hs] at herror; cases herror
    | true => rw [hs] at herror; cases rest <;> cases herror

/-- **When a run saves.**  A run completes exactly when no line of any file is made
of white space only: one blank line anywhere loses the whole batch. -/
theorem completes_iff (o : SetOrder) (file : Option DatabaseFile) (files : List (List Str)) :
    Completes o file files ↔ ∀ lines ∈ files, ∀ line ∈ lines, ∃ c ∈ line, isSpace c = false := by
  have hread : (∀ lines ∈ files, ∀ line ∈ lines, ∃ c ∈ line, isSpace c = false) ↔
      ∀ line ∈ files.flatten, Readable line := by
    simp only [← readable_iff, List.mem_flatten]
    exact ⟨fun h line ⟨lines, hl, hline⟩ => h lines hl line hline,
      fun h lines hl line hline => h line ⟨lines, hl, hline⟩⟩
  rw [hread]
  constructor
  · intro ⟨_, written, hwritten⟩
    by_contra hnot
    rw [main_eq, if_neg hnot] at hwritten
    cases hwritten
  · intro h
    refine ⟨?_, _, by rw [main_eq, if_pos h]⟩
    intro before lines after hfiles
    subst hfiles
    have hbefore : ∀ line ∈ before.flatten, Readable line := fun line hline =>
      h line (by rw [List.flatten_append]; exact List.mem_append_left _ hline)
    have hlines : ∀ line ∈ lines, Readable line := fun line hline =>
      h line (by simp [hline])
    have hsets := allSets_readDatabase file
    have hfile := processLines_of_readable (allSets_foldl_record hsets before.flatten) 0 hlines
    exact ⟨_, _, _, processFiles_of_readable hsets hbefore, by rw [processHistoryFile, hfile]; rfl⟩

/-- A blank line after `make` loses `make`. -/
theorem not_completes_blank :
    ¬ Completes .sorted none [["make\n".toList, "\n".toList]] := by
  intro ⟨_, written, hwritten⟩
  have herror : main .sorted none [["make\n".toList, "\n".toList]] = .error .indexError := rfl
  rw [herror] at hwritten
  cases hwritten

end History
end Dfuser
