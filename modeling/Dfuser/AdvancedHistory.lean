import Dfuser.Lib.Json
import Dfuser.Lib.Lines
import Dfuser.Lib.Squeeze

/-!
# Commands, as JSON objects in a file

`scripts/bash/advanced_history.sh` appends the last command, its exit status, the working
directory and the time to a file, as a JSON object.  Command and directory pass through an
unquoted `echo`, `sed` puts a backslash before their quotes, and the whole object passes
through an unquoted `echo` again.

The two texts are lines; the time is what `date --iso-8601=seconds` prints.  What `echo -e`
makes of backslashes is a parameter, of which it is only used that no escape is shorter
than what it stands for.  The other function of the script is never called.

## Main definitions

* `lastCommand`, `quoted`, `jsonObj`, `appended` — the script.
* `Recorded` — the line that is appended holds command, directory and status.
* `Plain`, `Inert` — texts that `echo` and JSON leave alone, and words that no file
  changes.

## Main results

* `appended_eq` — the line, where no word is a pattern of a path.
* `weight_echo_lt` — options are lost.
* `recorded` — **which commands are recorded, and from which directories.**
-/

namespace Dfuser
namespace AdvancedHistory

open Json (escapeQuotes weight weight_nil weight_cons weight_append)

/-! ### The script -/

/-- What `echo -e` makes of backslashes. -/
structure Escapes where
  interpret : Str → Str
  weight_le : ∀ s, weight (interpret s) ≤ weight s

/-- A character of a time. -/
def isTimeChar (c : Char) : Bool := c.isAlphanum || c = '-' || c = ':' || c = '+'

theorem printable_of_isTimeChar {c : Char} (h : isTimeChar c = true) : 32 ≤ c.toNat := by
  simp only [isTimeChar, Bool.or_eq_true, decide_eq_true_eq] at h
  rcases h with ((h | rfl) | rfl) | rfl
  · exact Nat.le_trans (by decide) (range_of_isAlphanum h).1
  · decide
  · decide
  · decide

/-- A time in ISO 8601 format. -/
structure Timestamp where
  text : Str
  plain : text.all isTimeChar = true

/-- What a shell has when it is about to print a prompt. -/
structure Prompt where
  /-- The number of the last command in the history. -/
  number : ℕ
  command : Line
  directory : Line
  status : Fin 256
  timestamp : Timestamp

variable (E : Escapes) (fs : FileSystem) (dir : Path) (p : Prompt)

/-- `history 1`: the number in a column of five, and the command. -/
def history : Str :=
  (Nat.toDigits 10 p.number).leftpad 5 ' ' ++ "  ".toList ++ p.command.text ++ ['\n']

/-- `s/^[ ]*[0-9]*[ ]*//` -/
def stripNumber (line : Str) : Str :=
  ((line.dropWhile (· = ' ')).dropWhile Char.isDigit).dropWhile (· = ' ')

/-- `$(history 1 | sed …)`. -/
def lastCommand : Str := chomp (unlines ((textLines (history p)).map stripNumber))

/-- `$(echo $s | sed 's/"/\\"/g')`. -/
def quoted (s : Str) : Str := chomp (escapeQuotes (echo E.interpret (expandWords fs dir s)))

/-- The object that `printf` prints. -/
def recordText (command status directory timestamp : Str) : Str :=
  "\x7b\"command\": \"".toList ++ command ++ "\", \"status\": ".toList ++ status ++
    ", \"directory\": \"".toList ++ directory ++ "\", \"timestamp\": \"".toList ++ timestamp ++
    "\"\x7d".toList

/-- The status as it is printed. -/
def Prompt.statusText : Str := Nat.toDigits 10 p.status.val

/-- `$(printf …)`. -/
def jsonObj : Str :=
  chomp (recordText (quoted E fs dir (lastCommand p)) p.statusText
    (quoted E fs dir (chomp (p.directory.text ++ ['\n']))) p.timestamp.text ++ ['\n'])

/-- The text that `append_status_to_history` appends to the file. -/
def appended : Str := echo E.interpret (expandWords fs dir (jsonObj E fs dir p))

/-- The last member with a key. -/
def member? (members : List (Str × Json)) (key : Str) : Option Json :=
  (members.reverse.find? fun m => m.1 = key).map Prod.snd

/-- The line that is appended is an object with the command, the directory and the exit
status in it. -/
def Recorded : Prop :=
  ∃ members, Json.parse (appended E fs dir p) = some (.object members) ∧
    member? members "command".toList = some (.string p.command.text) ∧
    member? members "directory".toList = some (.string p.directory.text) ∧
    member? members "status".toList = some (.number p.statusText)

/-! ### Texts that come back -/

/-- One blank between the words, the first of which is no option to `echo`, no backslash
and no control character. -/
structure Plain (s : Str) : Prop where
  collapsed : [' '].intercalate (fields isBlank s) = s
  backslash_notMem : '\\' ∉ s
  printable : ∀ c ∈ s, 32 ≤ c.toNat
  head : ∀ w ∈ (fields isBlank s).head?, isEchoOption w = false

/-- A word that stands for itself, whatever files there are. -/
def Inert (w : Str) : Prop := ∀ fs dir, glob fs dir w = [w]

/-- Command and directory come back, and no word is a pattern of a path: neither one of
theirs nor one of the object. -/
structure Harmless : Prop where
  command : Plain p.command.text
  directory : Plain p.directory.text
  inert : ∀ w ∈ fields isBlank p.command.text ++ fields isBlank p.directory.text ++
    fields isBlank (recordText (escapeQuotes p.command.text) p.statusText
      (escapeQuotes p.directory.text) p.timestamp.text), Inert w

/-! ### The command and the line -/

/-- What the history says of the command, without its number. -/
theorem stripNumber_append {digits : Str} (hne : digits ≠ [])
    (hdigits : ∀ c ∈ digits, c.isDigit = true)
    (s : Str) : stripNumber (digits.leftpad 5 ' ' ++ "  ".toList ++ s) = s.dropWhile (· = ' ') := by
  have hcolumn : (digits.leftpad 5 ' ' ++ "  ".toList ++ s).dropWhile (· = ' ') =
      digits ++ ("  ".toList ++ s) := by
    rw [List.leftpad, List.append_assoc, List.append_assoc, List.dropWhile_append_of_pos]
    · obtain ⟨d, ds, rfl⟩ := List.exists_cons_of_ne_nil hne
      apply List.dropWhile_cons_of_neg
      rw [decide_eq_true_eq]
      rintro rfl
      exact absurd (hdigits ' ' List.mem_cons_self) (by decide)
    · intro c hc
      exact decide_eq_true (List.eq_of_mem_replicate hc)
  rw [stripNumber, hcolumn, List.dropWhile_append_of_pos hdigits]
  rfl

/-- The command loses the blanks at its start. -/
theorem lastCommand_eq : lastCommand p = p.command.text.dropWhile (· = ' ') := by
  have hdigits : ∀ c ∈ Nat.toDigits 10 p.number, c.isDigit = true :=
    fun c hc => Nat.isDigit_of_mem_toDigits (by decide) (by decide) hc
  have hnewline : '\n' ∉ (Nat.toDigits 10 p.number).leftpad 5 ' ' ++ "  ".toList ++
      p.command.text := by
    rw [List.mem_append, List.mem_append, List.leftpad, List.mem_append]
    rintro (((hpad | hdigit) | hblank) | hcommand)
    · exact absurd (List.eq_of_mem_replicate hpad) (by decide)
    · exact absurd (hdigits _ hdigit) (by decide)
    · revert hblank
      decide
    · exact p.command.newline_notMem hcommand
  have hhistory : history p =
      unlines [(Nat.toDigits 10 p.number).leftpad 5 ' ' ++ "  ".toList ++ p.command.text] := by
    simp [history, unlines]
  have hcommand : '\n' ∉ p.command.text.dropWhile (· = ' ') :=
    fun h => p.command.newline_notMem ((List.dropWhile_sublist _).subset h)
  rw [lastCommand, hhistory, textLines_unlines (by simpa using hnewline), List.map_singleton,
    stripNumber_append Nat.toDigits_ne_nil hdigits, unlines, List.flatMap_singleton, chomp_concat,
    chomp_of_notMem hcommand]

theorem chomp_escapeQuotes (s : Str) : chomp (escapeQuotes s) = escapeQuotes (chomp s) := by
  induction s using List.reverseRecOn with
  | nil => rfl
  | append_singleton s c ih =>
    rw [Json.escapeQuotes_append]
    by_cases hc : c = '\n'
    · have hnewline : escapeQuotes ['\n'] = ['\n'] := rfl
      rw [hc, hnewline, chomp_concat, chomp_concat, ih]
    · rw [chomp_concat_of_ne hc, Json.escapeQuotes_append]
      by_cases hquote : c = '"'
      · have hpair : escapeQuotes ['"'] = ['\\'] ++ ['"'] := rfl
        rw [hquote, hpair, ← List.append_assoc, chomp_concat_of_ne (by decide)]
      · have hsame : escapeQuotes [c] = [c] := Json.escapeQuotes_cons hquote []
        rw [hsame, chomp_concat_of_ne hc]

theorem squeeze_escapeQuotes (after : Bool) (s : Str) :
    squeeze isBlank ' ' after (escapeQuotes s) = escapeQuotes (squeeze isBlank ' ' after s) := by
  induction s generalizing after with
  | nil => rfl
  | cons c s ih =>
    by_cases hquote : c = '"'
    · rw [hquote, Json.escapeQuotes_quote, squeeze_cons_of_neg (by decide),
        squeeze_cons_of_neg (by decide),
        squeeze_cons_of_neg (by decide), Json.escapeQuotes_quote, ih]
    · rw [Json.escapeQuotes_cons hquote, squeeze, squeeze]
      split
      · split
        · exact ih true
        · rw [Json.escapeQuotes_cons (by decide), ih]
      · rw [Json.escapeQuotes_cons hquote, ih]

/-! ### What is printed -/

/-- What is left of a text when it is printed, without patterns. -/
def printed (s : Str) : Str := chomp (echo E.interpret (fields isBlank s))

theorem quoted_eq {s : Str} (h : ∀ w ∈ fields isBlank s, glob fs dir w = [w]) :
    quoted E fs dir s = escapeQuotes (printed E s) := by
  rw [quoted, expandWords_of_forall h, chomp_escapeQuotes]
  rfl

theorem fields_dropWhile (s : Str) : fields isBlank (s.dropWhile (· = ' ')) = fields isBlank s := by
  induction s with
  | nil => rfl
  | cons c s ih =>
    by_cases hc : c = ' '
    · subst hc
      have hblank : fields isBlank (' ' :: s) = fields isBlank s :=
        fields_append_cons (by decide) [] s
      rw [hblank, ← ih]
      rfl
    · rw [List.dropWhile_cons_of_neg (by simpa using hc)]

theorem newline_notMem_intercalate {ws : List Str} (h : ∀ w ∈ ws, ∀ c ∈ w, isBlank c = false) :
    '\n' ∉ [' '].intercalate ws := by
  have hword : ∀ w ∈ ws, '\n' ∉ w := fun w hw hc => absurd (h w hw _ hc) (by decide)
  cases ws with
  | nil => exact List.not_mem_nil
  | cons w ws =>
    rw [Joined.intercalate_cons_eq, List.mem_append, not_or, Joined.spell, List.mem_flatMap]
    refine ⟨hword w List.mem_cons_self, ?_⟩
    rintro ⟨v, hv, hc⟩
    rcases List.mem_cons.mp hc with hblank | hc
    · exact absurd hblank (by decide)
    · exact hword v (List.mem_cons_of_mem w hv) hc

/-- Words that are no options are printed with one blank in between. -/
theorem printed_eq {s : Str} (h : ∀ w ∈ (fields isBlank s).head?, isEchoOption w = false) :
    printed E s = [' '].intercalate (fields isBlank s) := by
  rw [printed, echo_of_head h, chomp_concat, chomp_of_notMem]
  exact newline_notMem_intercalate fun w hw => (mem_fields hw).2

theorem squeeze_intercalate_fields (s : Str) :
    squeeze isBlank ' ' false ([' '].intercalate (fields isBlank s)) =
      [' '].intercalate (fields isBlank s) :=
  squeeze_intercalate (by decide) fun _ hw => mem_fields hw

/-! ### The line -/

section Line

variable {x y status timestamp : Str}

theorem recordText_eq (x status y timestamp : Str) : recordText x status y timestamp =
    "\x7b\"command\": ".toList ++
      '"' :: (x ++ '"' :: (", \"status\"".toList ++ ':' :: (' ' :: (status ++
      ',' :: (" \"directory\": ".toList ++ '"' :: (y ++ '"' :: (", \"timestamp\": ".toList ++
        '"' :: (timestamp ++ '"' :: ['\x7d'])))))))) := by
  have hcommand : "\x7b\"command\": \"".toList = "\x7b\"command\": ".toList ++ ['"'] := rfl
  have hstatus : "\", \"status\": ".toList = '"' :: (", \"status\"".toList ++ [':', ' ']) := rfl
  have hdirectory : ", \"directory\": \"".toList = ',' :: (" \"directory\": ".toList ++ ['"']) :=
    rfl
  have htime : "\", \"timestamp\": \"".toList = '"' :: (", \"timestamp\": ".toList ++ ['"']) := rfl
  have hend : "\"\x7d".toList = ['"', '\x7d'] := rfl
  unfold recordText
  rw [hcommand, hstatus, hdirectory, htime, hend]
  simp only [List.append_assoc, List.cons_append, List.nil_append]

theorem squeeze_recordText (hstatus : ∀ c ∈ status, isBlank c = false)
    (htime : ∀ c ∈ timestamp, isBlank c = false) :
    squeeze isBlank ' ' true (recordText x status y timestamp) =
      recordText (squeeze isBlank ' ' false x) status (squeeze isBlank ' ' false y) timestamp := by
  have hblank : ∀ s, squeeze isBlank ' ' false (' ' :: s) = ' ' :: squeeze isBlank ' ' true s :=
    fun _ => rfl
  have hcommand : squeeze isBlank ' ' true "\x7b\"command\": ".toList =
      "\x7b\"command\": ".toList := by
    decide
  have hword : squeeze isBlank ' ' false ", \"status\"".toList = ", \"status\"".toList := by decide
  have hdirectory : squeeze isBlank ' ' false " \"directory\": ".toList =
      " \"directory\": ".toList := by
    decide
  have htimestamp : squeeze isBlank ' ' false ", \"timestamp\": ".toList =
      ", \"timestamp\": ".toList := by
    decide
  have hend : squeeze isBlank ' ' false ['\x7d'] = ['\x7d'] := by decide
  rw [recordText_eq, recordText_eq, squeeze_append_cons (by decide),
    squeeze_append_cons (by decide),
    squeeze_append_cons (by decide), hblank, squeeze_append_cons (by decide),
    squeeze_append_cons (by decide), squeeze_append_cons (by decide),
    squeeze_append_cons (by decide),
    squeeze_append_cons (by decide), squeeze_of_forall hstatus, squeeze_of_forall htime, hcommand,
      hword, hdirectory, htimestamp, hend]

theorem getLast?_recordText (x status y timestamp : Str) :
    (recordText x status y timestamp).getLast? = some '\x7d' := by
  have hlast : "\"\x7d".toList = ['"'] ++ ['\x7d'] := rfl
  unfold recordText
  rw [hlast, ← List.append_assoc, List.getLast?_concat]

/-- The first word of an object is no option. -/
theorem head?_recordText (x status y timestamp : Str) :
    ∀ w ∈ (fields isBlank (recordText x status y timestamp)).head?, isEchoOption w = false := by
  intro w hw
  have hbrace : ['\x7b'] <+: recordText x status y timestamp := by
    rw [recordText_eq]
    exact ⟨_, rfl⟩
  have hblank : ∀ c ∈ ['\x7b'], isBlank c = false := List.forall_mem_singleton.mpr (by decide)
  obtain ⟨v, rest, hfields, hpre⟩ := fields_of_prefix (by simp) hblank hbrace
  rw [hfields, List.head?_cons, Option.mem_some_iff] at hw
  subst hw
  obtain ⟨t, rfl⟩ := hpre
  rfl

/-- The object on one line. -/
theorem intercalate_recordText (hstatus : ∀ c ∈ status, isBlank c = false)
    (htime : ∀ c ∈ timestamp, isBlank c = false) :
    [' '].intercalate (fields isBlank (recordText x status y timestamp)) =
      recordText (squeeze isBlank ' ' false x) status (squeeze isBlank ' ' false y) timestamp := by
  have hlast := getLast?_recordText x status y timestamp
  rw [intercalate_fields, squeeze_recordText hstatus htime]
  · intro hnil
    rw [hnil] at hlast
    cases hlast
  · intro c hc
    rw [hlast, Option.mem_some_iff] at hc
    rw [← hc]
    decide

/-- A member behind another one, up to its value. -/
def keyed (key rest : Str) : Str := ' ' :: '"' :: (key ++ '"' :: ':' :: ' ' :: rest)

/-- The members behind the command, and those behind the directory. -/
def afterDirectory (timestamp : Str) : Str :=
  keyed "timestamp".toList ('"' :: (timestamp ++ '"' :: '\x7d' :: ['\n']))

def afterCommand (status directory timestamp : Str) : Str :=
  keyed "status".toList (status ++ ',' :: keyed "directory".toList
    ('"' :: (directory ++ '"' :: ',' :: afterDirectory timestamp)))

theorem recordText_members (x status y timestamp : Str) :
    recordText x status y timestamp ++ ['\n'] =
      '\x7b' :: '"' :: ("command".toList ++ '"' :: ':' :: ' ' ::
      ('"' :: (x ++ '"' :: ',' :: afterCommand status y timestamp))) := by
  have hcommand : "\x7b\"command\": ".toList = '\x7b' :: '"' :: ("command".toList ++ ['"', ':',
    ' ']) := rfl
  have hstatus : ", \"status\"".toList = ',' :: ' ' :: '"' :: ("status".toList ++ ['"']) := rfl
  have hdirectory : " \"directory\": ".toList =
    ' ' :: '"' :: ("directory".toList ++ ['"', ':', ' ']) := rfl
  have htime : ", \"timestamp\": ".toList =
    ',' :: ' ' :: '"' :: ("timestamp".toList ++ ['"', ':', ' ']) := rfl
  rw [recordText_eq, hcommand, hstatus, hdirectory, htime]
  simp only [afterCommand, afterDirectory, keyed, List.append_assoc, List.cons_append,
    List.nil_append]

theorem parseKey_keyed {key : Str}
    (hkey : (key.all fun c => c ≠ '"' ∧ c ≠ '\\' ∧ 32 ≤ c.toNat) = true)
    (rest : Str) : Json.parseKey (keyed key rest) = some (key, ' ' :: rest) :=
  Json.parseKey_of_plain hkey (' ' :: rest)

/-- The members of an object with these texts. -/
def membersOf (command status directory timestamp : Str) : List (Str × Json) :=
  [("command".toList, .string command), ("status".toList, .number status),
    ("directory".toList, .string directory), ("timestamp".toList, .string timestamp)]

/-- The last member, which is the time. -/
theorem parseMembers_afterDirectory (n : ℕ) (htime : timestamp.all isTimeChar = true) :
    Json.parseMembers (n + 2) (afterDirectory timestamp) =
      some ([("timestamp".toList, .string timestamp)], ['\n']) := by
  have hchar : ∀ c ∈ timestamp, isTimeChar c = true := List.all_eq_true.mp htime
  have hquote : '"' ∉ timestamp := fun hc => absurd (hchar _ hc) (by decide)
  have hback : '\\' ∉ timestamp := fun hc => absurd (hchar _ hc) (by decide)
  have hstring := Json.parseString_escapeQuotes hback
    (fun c hc => printable_of_isTimeChar (hchar c hc)) ('\x7d' :: ['\n'])
  rw [Json.escapeQuotes_of_notMem hquote] at hstring
  exact Json.parseMembers_string_last (parseKey_keyed (by decide) _) hstring

/-- Status and directory, when the string of the directory is read. -/
theorem parseMembers_afterCommand (n : ℕ) {u : Str} (hstatus : Json.IsNatural status)
    (htime : timestamp.all isTimeChar = true)
    (hstring : Json.parseString (y ++ '"' :: ',' :: afterDirectory timestamp) =
      some (u, ',' :: afterDirectory timestamp)) :
    Json.parseMembers (n + 4) (afterCommand status y timestamp) =
      some ((membersOf [] status u timestamp).tail, ['\n']) := by
  rw [afterCommand, Json.parseMembers_natural hstatus (parseKey_keyed (by decide) _),
    Json.parseMembers_string_eq (parseKey_keyed (by decide) _) hstring,
    parseMembers_afterDirectory n htime]
  rfl

/-- **What can be read from a line**: the texts that the escapes stand for. -/
theorem members_of_parse {members : List (Str × Json)} (hstatus : Json.IsNatural status)
    (htime : timestamp.all isTimeChar = true)
    (h : Json.parse (recordText (escapeQuotes x) status (escapeQuotes y) timestamp ++ ['\n']) =
      some (.object members)) :
    ∃ t u, Json.unescape (escapeQuotes x) = some t ∧ Json.unescape (escapeQuotes y) = some u ∧
      members = membersOf t status u timestamp := by
  rw [recordText_members, Json.parse_object_iff] at h
  obtain ⟨members', last, hmembers, hlast, heq⟩ := h
  cases heq
  generalize hfuel : List.length _ + 2 = fuel at hmembers
  obtain ⟨n, rfl⟩ : ∃ n, fuel = n + 5 := ⟨fuel - 5, by simp at hfuel; omega⟩
  -- the command, the status, and the directory
  obtain ⟨t, ms, hx, hrest, rfl⟩ := Json.parseMembers_string (Json.parseKey_of_plain (by decide) _)
    rfl (by decide) (by decide) (by decide) (by decide) hmembers hlast
  rw [afterCommand, Json.parseMembers_natural hstatus (parseKey_keyed (by decide) _)] at hrest
  obtain ⟨⟨ms', last'⟩, hrest', heq⟩ := Option.map_eq_some_iff.mp hrest
  cases heq
  obtain ⟨u, ms'', hy, htimestamp, rfl⟩ := Json.parseMembers_string (parseKey_keyed (by decide) _)
    rfl (by decide) (by decide) (by decide) (by decide) hrest' hlast
  rw [parseMembers_afterDirectory n htime] at htimestamp
  cases htimestamp
  exact ⟨t, u, Json.unescape_of_parseString hx, Json.unescape_of_parseString hy, rfl⟩

/-- A line whose texts have no backslashes and no control characters. -/
theorem parse_recordText (hstatus : Json.IsNatural status) (htime : timestamp.all isTimeChar = true)
    (hx : '\\' ∉ x) (hx' : ∀ c ∈ x, 32 ≤ c.toNat) (hy : '\\' ∉ y) (hy' : ∀ c ∈ y, 32 ≤ c.toNat) :
    Json.parse (recordText (escapeQuotes x) status (escapeQuotes y) timestamp ++ ['\n']) =
      some (.object (membersOf x status y timestamp)) := by
  rw [recordText_members, Json.parse_object_iff]
  generalize hfuel : List.length _ + 2 = fuel
  obtain ⟨n, rfl⟩ : ∃ n, fuel = n + 5 := ⟨fuel - 5, by simp at hfuel; omega⟩
  refine ⟨_, ['\n'], ?_, rfl, rfl⟩
  rw [Json.parseMembers_string_eq (Json.parseKey_of_plain (by decide) _)
    (Json.parseString_escapeQuotes hx hx' _),
    parseMembers_afterCommand n hstatus htime (Json.parseString_escapeQuotes hy hy' _)]
  rfl

end Line

/-! ### What is lost -/

theorem weight_squeeze_le (after : Bool) (s : Str) :
    weight (squeeze isBlank ' ' after s) ≤ weight s := by
  induction s generalizing after with
  | nil => exact Nat.le_refl _
  | cons c s ih =>
    have htrue := ih true
    have hfalse := ih false
    have hblank : weight (' ' :: squeeze isBlank ' ' true s) =
        weight (squeeze isBlank ' ' true s) + 1 := weight_cons _ _
    have hone : weight s + 1 ≤ weight (c :: s) := by
      rw [weight_cons]
      split <;> omega
    rw [squeeze]
    split
    · split
      · omega
      · omega
    · rw [weight_cons, weight_cons]
      omega

/-- Words that are put together again weigh no more than the text they come from. -/
theorem weight_spell_fields_le (w s : Str) (hw : ∀ c ∈ w, isBlank c = false) :
    weight (Joined.spell ' ' (fields isBlank (w ++ s))) ≤ weight w + weight s + 1 := by
  have hword : ∀ w : Str, (∀ c ∈ w, isBlank c = false) →
      weight (Joined.spell ' ' (fields isBlank w)) ≤ weight w + 1 := by
    intro w hw
    by_cases hnil : w = []
    · subst hnil
      simp
    · rw [fields_eq_singleton hnil hw, Joined.spell_cons, Joined.spell_nil, List.append_nil,
        weight_cons, if_neg (by decide)]
  induction s generalizing w with
  | nil =>
    have hle := hword w hw
    rw [List.append_nil, weight_nil]
    omega
  | cons c s ih =>
    have hone : weight s + 1 ≤ weight (c :: s) := by
      rw [weight_cons]
      split <;> omega
    by_cases hc : isBlank c = true
    · have hle := hword w hw
      have hrest := ih [] (by simp)
      rw [List.nil_append, weight_nil] at hrest
      rw [fields_append_cons hc, Joined.spell_append, weight_append]
      omega
    · have hrest := ih (w ++ [c]) (by
        intro d hd
        rcases List.mem_append.mp hd with hd | hd
        · exact hw d hd
        · rw [List.mem_singleton.mp hd]
          simpa using hc)
      have hsplit : weight ([c] ++ s) = weight [c] + weight s := weight_append [c] s
      rw [List.append_assoc, List.singleton_append, weight_append] at hrest
      rw [List.singleton_append] at hsplit
      omega

/-- The first of joined words has no blank before it. -/
theorem weight_spell {ws : List Str} (h : ws ≠ []) :
    weight (Joined.spell ' ' ws) = weight ([' '].intercalate ws) + 1 := by
  obtain ⟨w, ws, rfl⟩ := List.exists_cons_of_ne_nil h
  rw [Joined.spell_cons, Joined.intercalate_cons_eq, weight_cons, if_neg (by decide)]

theorem weight_intercalate_le (ws : List Str) :
    weight ([' '].intercalate ws) ≤ weight (Joined.spell ' ' ws) := by
  by_cases h : ws = []
  · rw [h]
    exact Nat.le_refl _
  · rw [weight_spell h]
    exact Nat.le_succ _

theorem weight_intercalate_fields_le (s : Str) :
    weight ([' '].intercalate (fields isBlank s)) ≤ weight s := by
  by_cases h : fields isBlank s = []
  · rw [h]
    exact Nat.zero_le _
  · have hle := weight_spell_fields_le [] s (by simp)
    rw [List.nil_append, weight_nil, weight_spell h] at hle
    omega

theorem weight_echo_le (ws : List Str) :
    weight (echo E.interpret ws) ≤ weight ([' '].intercalate (ws.dropWhile isEchoOption)) + 1 := by
  have hnewline : ∀ s : Str, weight (s ++ ['\n']) = weight s + 1 := by
    intro s
    rw [weight_append]
    rfl
  unfold echo
  dsimp only
  split
  · refine le_trans (E.weight_le _) ?_
    split
    · exact Nat.le_succ _
    · rw [hnewline]
  · split
    · exact Nat.le_succ _
    · rw [hnewline]

/-- **Options are lost.** -/
theorem weight_echo_lt {s w : Str} (hw : (fields isBlank s).head? = some w)
    (hoption : isEchoOption w = true) :
    weight (echo E.interpret (fields isBlank s)) < weight s := by
  obtain ⟨ws, hws⟩ := List.head?_eq_some_iff.mp hw
  have hlong : 2 ≤ weight w := by
    unfold isEchoOption at hoption
    split at hoption
    · next c t =>
      have hlength : 2 ≤ ('-' :: c :: t).length := by simp
      have hle := Json.weight_eq ('-' :: c :: t)
      omega
    · cases hoption
  have hecho := weight_echo_le E (w :: ws)
  rw [List.dropWhile_cons_of_pos hoption] at hecho
  have hintercalate := weight_intercalate_le (ws.dropWhile isEchoOption)
  have hspell := weight_spell_fields_le [] s (by simp)
  rw [List.nil_append, hws, Joined.spell_cons, weight_cons, if_neg (by decide), weight_append,
    weight_nil,
    ← List.takeWhile_append_dropWhile (p := isEchoOption) (l := ws), Joined.spell_append,
    weight_append] at hspell
  rw [hws]
  omega

/-- **Which texts come back**: with options, runs of blanks, backslashes or control
characters a text does not. -/
theorem plain_of_unescape {s : Str}
    (h : Json.unescape (escapeQuotes (squeeze isBlank ' ' false (printed E s))) = some s) :
    Plain s := by
  have hle := Json.weight_le_of_unescape h
  rw [Json.length_escapeQuotes] at hle
  have hweight := Json.weight_eq (squeeze isBlank ' ' false (printed E s))
  have hhead : ∀ w ∈ (fields isBlank s).head?, isEchoOption w = false := by
    intro w hw
    by_contra hoption
    rw [Bool.not_eq_false] at hoption
    have hlt := weight_echo_lt E hw hoption
    have hsqueeze := weight_squeeze_le false (printed E s)
    have hchomp : weight (printed E s) ≤ weight (echo E.interpret (fields isBlank s)) := by
      obtain ⟨t, ht⟩ := prefix_chomp (echo E.interpret (fields isBlank s))
      rw [printed]
      conv_rhs => rw [← ht, weight_append]
      exact Nat.le_add_right _ _
    omega
  have hsame : squeeze isBlank ' ' false (printed E s) = [' '].intercalate (fields isBlank s) := by
    rw [printed_eq E hhead, squeeze_intercalate_fields]
  rw [hsame] at h hle hweight
  have hback : '\\' ∉ [' '].intercalate (fields isBlank s) := by
    have hfields := weight_intercalate_fields_le s
    apply List.count_eq_zero.mp
    omega
  rw [Json.unescape_escapeQuotes hback] at h
  split at h
  · next hprintable =>
    have heq := Option.some.inj h
    rw [heq] at hback hprintable
    exact ⟨heq, hback, by simpa using hprintable, hhead⟩
  · cases h

/-! ### Which commands are recorded -/

theorem isNatural_statusText : Json.IsNatural p.statusText := by
  have hall : ∀ status : Fin 256, Json.IsNatural (Nat.toDigits 10 status.val) := by
    decide +kernel
  exact hall p.status

/-- The line that is appended, where no word is a pattern of a path. -/
theorem appended_eq
    (hwords : ∀ w ∈ fields isBlank p.command.text ++ fields isBlank p.directory.text ++
      fields isBlank (recordText (escapeQuotes (printed E p.command.text)) p.statusText
        (escapeQuotes (printed E p.directory.text)) p.timestamp.text), glob fs dir w = [w]) :
    appended E fs dir p =
      recordText (escapeQuotes (squeeze isBlank ' ' false (printed E p.command.text))) p.statusText
        (escapeQuotes (squeeze isBlank ' ' false (printed E p.directory.text))) p.timestamp.text ++
          ['\n'] := by
  simp only [List.mem_append] at hwords
  have hfields : fields isBlank (lastCommand p) = fields isBlank p.command.text := by
    rw [lastCommand_eq, fields_dropWhile]
  have hcommand : quoted E fs dir (lastCommand p) = escapeQuotes (printed E p.command.text) := by
    rw [quoted_eq, printed, hfields]
    · rfl
    · intro w hw
      exact hwords w (.inl (.inl (hfields ▸ hw)))
  have hdirectory : quoted E fs dir (chomp (p.directory.text ++ ['\n'])) =
      escapeQuotes (printed E p.directory.text) := by
    rw [chomp_concat, chomp_of_notMem p.directory.newline_notMem, quoted_eq]
    intro w hw
    exact hwords w (.inl (.inr hw))
  have hobject : jsonObj E fs dir p =
    recordText (escapeQuotes (printed E p.command.text)) p.statusText
      (escapeQuotes (printed E p.directory.text)) p.timestamp.text := by
    obtain ⟨text, htext⟩ := List.getLast?_eq_some_iff.mp (getLast?_recordText
      (escapeQuotes (printed E p.command.text)) p.statusText
      (escapeQuotes (printed E p.directory.text)) p.timestamp.text)
    rw [jsonObj, hcommand, hdirectory, chomp_concat, htext, chomp_concat_of_ne (by decide)]
  have hstatus : ∀ c ∈ p.statusText, isBlank c = false := by
    intro c hc
    have hdigit := Nat.isDigit_of_mem_toDigits (by decide) (by decide) hc
    exact isBlank_of_kind (by decide) hdigit
  have htime : ∀ c ∈ p.timestamp.text, isBlank c = false := by
    intro c hc
    exact isBlank_of_kind (by decide) (List.all_eq_true.mp p.timestamp.plain c hc)
  rw [appended, hobject, expandWords_of_forall fun w hw => hwords w (.inr hw),
    echo_of_head (head?_recordText _ _ _ _), intercalate_recordText hstatus htime,
      squeeze_escapeQuotes, squeeze_escapeQuotes]

/-- The members that are looked for. -/
theorem member?_membersOf (command status directory timestamp : Str) :
    member? (membersOf command status directory timestamp) "command".toList =
      some (.string command) ∧
      member? (membersOf command status directory timestamp) "directory".toList =
        some (.string directory) ∧
      member? (membersOf command status directory timestamp) "status".toList =
        some (.number status) :=
  ⟨rfl, rfl, rfl⟩

/-- Without files it depends on the two texts. -/
theorem plain_of_recorded (h : Recorded E FileSystem.empty [] p) :
    Plain p.command.text ∧ Plain p.directory.text := by
  obtain ⟨members, hparse, hcommand, hdirectory, -⟩ := h
  rw [appended_eq E FileSystem.empty [] p fun w _ => glob_empty [] w] at hparse
  obtain ⟨t, u, ht, hu, rfl⟩ := members_of_parse (isNatural_statusText p) p.timestamp.plain hparse
  obtain ⟨hcommand', hdirectory', -⟩ := member?_membersOf t p.statusText u p.timestamp.text
  rw [hcommand', Option.some.injEq, Json.string.injEq] at hcommand
  rw [hdirectory', Option.some.injEq, Json.string.injEq] at hdirectory
  subst hcommand hdirectory
  exact ⟨plain_of_unescape E ht, plain_of_unescape E hu⟩

theorem Plain.printed_eq {s : Str} (h : Plain s) :
    printed E s = s ∧ squeeze isBlank ' ' false s = s := by
  have hsqueeze := squeeze_intercalate_fields s
  rw [h.collapsed] at hsqueeze
  exact ⟨by rw [AdvancedHistory.printed_eq E h.head, h.collapsed], hsqueeze⟩

/-- **Which commands are recorded**, and from which directories: where the two texts come
back and no word is a pattern of a path, the line holds them; and where it does so whatever
files there are, the two texts are such. -/
theorem forall_recorded :
    (Harmless p → ∀ fs dir, Recorded E fs dir p) ∧
      ((∀ fs dir, Recorded E fs dir p) → Plain p.command.text ∧ Plain p.directory.text) := by
  constructor
  · intro h fs dir
    obtain ⟨hcommand, hcommand'⟩ := h.command.printed_eq E
    obtain ⟨hdirectory, hdirectory'⟩ := h.directory.printed_eq E
    have hline := appended_eq E fs dir p
    rw [hcommand, hcommand', hdirectory, hdirectory'] at hline
    refine ⟨membersOf p.command.text p.statusText p.directory.text p.timestamp.text, ?_,
      member?_membersOf _ _ _ _⟩
    rw [hline fun w hw => h.inert w hw fs dir]
    exact parse_recordText (isNatural_statusText p) p.timestamp.plain h.command.backslash_notMem
      h.command.printable h.directory.backslash_notMem h.directory.printable
  · intro h
    exact plain_of_recorded E p (h FileSystem.empty [])

/-- A pattern of `grep`, with a backslash. -/
def grepDot : Prompt where
  number := 1
  command := ⟨"grep '\\.' f".toList, by decide, by decide⟩
  directory := ⟨"/tmp".toList, by decide, by decide⟩
  status := 0
  timestamp := ⟨"2024-01-01T00:00:00+00:00".toList, by decide⟩

/-- An `echo` that leaves backslashes alone. -/
def noEscapes : Escapes := ⟨id, fun _ => Nat.le_refl _⟩

/-- No string of JSON has this escape. -/
theorem not_recorded_grepDot : ¬ Recorded noEscapes FileSystem.empty [] grepDot := by
  intro h
  exact (plain_of_recorded noEscapes grepDot h).1.backslash_notMem (by decide)

end AdvancedHistory
end Dfuser
