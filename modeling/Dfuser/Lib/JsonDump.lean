import Dfuser.Lib.Json

/-!
# Writing JSON

The text that `json.dump` writes for a value, on one line or indented.  A string is written
in ASCII: what is no printable character is escaped, in two halves when it does not fit in
four digits.  The text is read back as the value, with anything behind it that cannot go on
with a number.

## Main definitions

* `dumpString` — a string, escaped.
* `dumpAt`, `dump` — the text of a value.
* `Integers` — every number in a value is an integer.
* `ofInt`, `int?` — an integer as a number, and the integer of a number.
* `string?`, `strings?`, `bool?` — what a value is, if it is of this type.

## Main results

* `unescape_escaped`, `closing_escaped` — a string is read back.
* `parseValue_dumpAt` — a value is read back, from the start of a text.
* `parse_dump` — **reading inverts writing.**
* `int?_ofInt` — an integer is read back from its digits.
-/

namespace Dfuser
namespace Json

/-! ### Strings -/

/-- A hexadecimal digit. -/
def hexDigit (n : ℕ) : Char := if n < 10 then Char.ofNat (48 + n) else Char.ofNat (87 + n)

/-- Four of them. -/
def hex4 (n : ℕ) : Str :=
  [hexDigit (n / 4096 % 16), hexDigit (n / 256 % 16), hexDigit (n / 16 % 16), hexDigit (n % 16)]

/-- A character as it is written in a string. -/
def escapeChar (c : Char) : Str :=
  if c = '"' then ['\\', '"']
  else if c = '\\' then ['\\', '\\']
  else if c = '\n' then ['\\', 'n']
  else if c = '\r' then ['\\', 'r']
  else if c = '\t' then ['\\', 't']
  else if c = Char.ofNat 12 then ['\\', 'f']
  else if c = Char.ofNat 8 then ['\\', 'b']
  else if 32 ≤ c.toNat ∧ c.toNat < 127 then [c]
  else if c.toNat < 0x10000 then '\\' :: 'u' :: hex4 c.toNat
  else
    -- the two halves of a surrogate pair
    '\\' :: 'u' :: hex4 (0xD800 + (c.toNat - 0x10000) / 0x400) ++
      '\\' :: 'u' :: hex4 (0xDC00 + (c.toNat - 0x10000) % 0x400)

/-- The raw text of a string. -/
def escaped (s : Str) : Str := s.flatMap escapeChar

/-- A string with its quotes. -/
def dumpString (s : Str) : Str := '"' :: (escaped s ++ ['"'])

theorem hexDigit?_hexDigit : ∀ n < 16, hexDigit? (hexDigit n) = some n := by decide

theorem hex4?_hex4 {n : ℕ} (h : n < 65536) (t : Str) : hex4? (hex4 n ++ t) = some n := by
  have hdigit : ∀ m, hexDigit? (hexDigit (m % 16)) = some (m % 16) := fun m =>
    hexDigit?_hexDigit _ (Nat.mod_lt _ (by decide))
  simp only [hex4, List.cons_append, List.nil_append, hex4?, hdigit, Option.bind_eq_bind,
    Option.bind_some, Option.pure_def, Option.some.injEq]
  omega

theorem plain_hexDigit : ∀ n < 16, hexDigit n ≠ '"' ∧ hexDigit n ≠ '\\' := by decide

/-- Characters that are neither quotes nor backslashes do not end a string. -/
theorem closing_append {s : Str} (h : ∀ c ∈ s, c ≠ '"' ∧ c ≠ '\\') (t : Str) :
    closing false (s ++ t) = (closing false t).map fun r => (s ++ r.1, r.2) := by
  induction s with
  | nil =>
    rw [List.nil_append]
    cases closing false t <;> rfl
  | cons c s ih =>
    obtain ⟨hquote, hback⟩ := h c List.mem_cons_self
    rw [List.cons_append, closing, if_neg hquote, decide_eq_false hback,
      ih fun d hd => h d (List.mem_cons_of_mem _ hd), Option.map_map]
    rfl

theorem closing_backslash (c : Char) (t : Str) :
    closing false ('\\' :: c :: t) = (closing false t).map fun r => ('\\' :: c :: r.1, r.2) := by
  rw [closing, if_neg (by decide), decide_eq_true rfl, closing, Option.map_map]
  rfl

theorem plain_hex4 (n : ℕ) : ∀ c ∈ hex4 n, c ≠ '"' ∧ c ≠ '\\' := by
  intro c hc
  simp only [hex4, List.mem_cons, List.not_mem_nil, or_false] at hc
  rcases hc with rfl | rfl | rfl | rfl <;> exact plain_hexDigit _ (Nat.mod_lt _ (by decide))

theorem closing_unicode (n : ℕ) (t : Str) :
    closing false ('\\' :: 'u' :: hex4 n ++ t) =
      (closing false t).map fun r => ('\\' :: 'u' :: hex4 n ++ r.1, r.2) := by
  rw [List.cons_append, List.cons_append, closing_backslash, closing_append (plain_hex4 n),
    Option.map_map]
  rfl

/-- A character does not end a string. -/
theorem closing_escapeChar (c : Char) (t : Str) :
    closing false (escapeChar c ++ t) =
      (closing false t).map fun r => (escapeChar c ++ r.1, r.2) := by
  unfold escapeChar
  split
  · exact closing_backslash _ t
  · next hquote =>
    split
    · exact closing_backslash _ t
    · next hback =>
      split
      · exact closing_backslash _ t
      · split
        · exact closing_backslash _ t
        · split
          · exact closing_backslash _ t
          · split
            · exact closing_backslash _ t
            · split
              · exact closing_backslash _ t
              · split
                · refine closing_append (fun d hd => ?_) t
                  rw [List.mem_singleton.mp hd]
                  exact ⟨hquote, hback⟩
                · split
                  · exact closing_unicode _ t
                  · rw [List.append_assoc, closing_unicode, closing_unicode, Option.map_map]
                    congr 1

/-- Where a string ends. -/
theorem closing_escaped (s t : Str) :
    closing false (escaped s ++ '"' :: t) = some (escaped s, t) := by
  induction s with
  | nil => rfl
  | cons c s ih =>
    rw [escaped, List.flatMap_cons, List.append_assoc, closing_escapeChar]
    rw [escaped] at ih
    rw [ih]
    rfl

theorem unescapeFrom_eq (k : ℕ) (s : Str) : unescapeFrom k s = unescapeFrom 0 (s.drop k) := by
  induction k generalizing s with
  | zero => rfl
  | succ k ih =>
    cases s with
    | nil => rfl
    | cons c s => exact ih s

theorem unescapeFrom_escape {s : Str} {c : Char} {k : ℕ} (h : escape? s = some (c, k)) :
    unescapeFrom 0 ('\\' :: s) = (unescapeFrom 0 (s.drop k)).map (c :: ·) := by
  rw [unescapeFrom, if_pos rfl, h, ← unescapeFrom_eq]

theorem unescapeFrom_short {c d : Char} {t : Str} (h : escape? (d :: t) = some (c, 1)) :
    unescapeFrom 0 (['\\', d] ++ t) = (unescapeFrom 0 t).map (c :: ·) := unescapeFrom_escape h

/-- The halves of a surrogate pair are put together again. -/
theorem unicode?_pair {hi lo : ℕ} (hhi : 0xD800 ≤ hi ∧ hi < 0xDC00)
    (hlo : 0xDC00 ≤ lo ∧ lo < 0xE000) (t : Str) :
    unicode? (hex4 hi ++ ('\\' :: 'u' :: (hex4 lo ++ t))) =
      some (Char.ofNat (0x10000 + (hi - 0xD800) * 0x400 + (lo - 0xDC00)), 10) := by
  have hdrop : (hex4 hi ++ ('\\' :: 'u' :: (hex4 lo ++ t))).drop 4 =
      '\\' :: 'u' :: (hex4 lo ++ t) := rfl
  rw [unicode?, hex4?_hex4 (by omega)]
  dsimp only [Option.bind_eq_bind, Option.bind_some]
  rw [if_pos hhi, hdrop]
  show (hex4? (hex4 lo ++ t)).bind _ = _
  rw [hex4?_hex4 (by omega), Option.bind_some, if_pos hlo]

theorem toNat_lt (c : Char) : c.toNat < 0x110000 := by
  have heq : c.toNat = c.val.toNat := rfl
  rcases c.valid with hlow | ⟨-, hhigh⟩ <;> omega

theorem unicode?_large {c : Char} (h : ¬ c.toNat < 0x10000) (t : Str) :
    unicode? (hex4 (0xD800 + (c.toNat - 0x10000) / 0x400) ++
      ('\\' :: 'u' :: (hex4 (0xDC00 + (c.toNat - 0x10000) % 0x400) ++ t))) = some (c, 10) := by
  have hc := toNat_lt c
  have hback : 0x10000 + (0xD800 + (c.toNat - 0x10000) / 0x400 - 0xD800) * 0x400 +
      (0xDC00 + (c.toNat - 0x10000) % 0x400 - 0xDC00) = c.toNat := by omega
  rw [unicode?_pair (by omega) (by omega), hback, Char.ofNat_toNat]

theorem unicode?_hex4 {c : Char} (h : c.toNat < 0x10000) (t : Str) :
    unicode? (hex4 c.toNat ++ t) = some (c, 4) := by
  have hvalid := c.valid
  rw [unicode?, hex4?_hex4 h]
  dsimp only [Option.bind_eq_bind, Option.bind_some]
  have heq : c.toNat = c.val.toNat := rfl
  -- a character is no surrogate
  have hno : ¬ (0xD800 ≤ c.toNat ∧ c.toNat < 0xDC00) := by
    rcases hvalid with hlow | ⟨hhigh, -⟩ <;> omega
  have hno' : ¬ (0xDC00 ≤ c.toNat ∧ c.toNat < 0xE000) := by
    rcases hvalid with hlow | ⟨hhigh, -⟩ <;> omega
  rw [if_neg hno, if_neg hno', Char.ofNat_toNat]

/-- A character is read back. -/
theorem unescapeFrom_escapeChar (c : Char) (t : Str) :
    unescapeFrom 0 (escapeChar c ++ t) = (unescapeFrom 0 t).map (c :: ·) := by
  unfold escapeChar
  split
  · next h => subst h; exact unescapeFrom_short rfl
  · next hquote =>
    split
    · next h => subst h; exact unescapeFrom_short rfl
    · next hback =>
      split
      · next h => subst h; exact unescapeFrom_short rfl
      · split
        · next h => subst h; exact unescapeFrom_short rfl
        · split
          · next h => subst h; exact unescapeFrom_short rfl
          · split
            · next h => subst h; exact unescapeFrom_short rfl
            · split
              · next h => subst h; exact unescapeFrom_short rfl
              · split
                · next hprint =>
                  rw [List.singleton_append, unescapeFrom, if_neg hback, if_neg]
                  rintro (h | h)
                  · exact hquote h
                  · omega
                · split
                  · next hsmall =>
                    rw [List.cons_append, unescapeFrom_escape (k := 5) (c := c)]
                    · rfl
                    · have hu := unicode?_hex4 hsmall t
                      rw [List.cons_append, escape?, hu]
                      rfl
                  · next hlarge =>
                    rw [List.append_assoc, List.cons_append, unescapeFrom_escape (k := 11) (c := c)]
                    · rfl
                    · have hu := unicode?_large hlarge t
                      rw [List.cons_append, List.cons_append, List.cons_append, escape?, hu]
                      rfl

/-- What a string stands for. -/
theorem unescape_escaped (s : Str) : unescape (escaped s) = some s := by
  induction s with
  | nil => rfl
  | cons c s ih =>
    rw [unescape, escaped] at ih
    rw [unescape, escaped, List.flatMap_cons, unescapeFrom_escapeChar, ih]
    rfl

theorem parseString_escaped (s t : Str) : parseString (escaped s ++ '"' :: t) = some (s, t) := by
  rw [parseString, closing_escaped]
  dsimp only [Option.bind_eq_bind, Option.bind_some]
  rw [unescape_escaped]
  rfl

/-! ### Values -/

/-- The line break before what stands at a level; on one line there is none. -/
def newline (indent : Option ℕ) (level : ℕ) : Str :=
  match indent with
  | none => []
  | some k => '\n' :: List.replicate (k * level) ' '

/-- What stands behind a comma. -/
def gap (indent : Option ℕ) (level : ℕ) : Str :=
  match indent with
  | none => [' ']
  | some _ => newline indent level

mutual

/-- The text of a value that stands at a level. -/
def dumpAt (indent : Option ℕ) (level : ℕ) : Json → Str
  | .null => "null".toList
  | .bool b => if b then "true".toList else "false".toList
  | .number text => text
  | .string s => dumpString s
  | .array elements => '[' :: dumpElements indent level true elements
  | .object members => '\x7b' :: dumpMembers indent level true members

/-- The elements of an array, from behind its bracket or from behind an element. -/
def dumpElements (indent : Option ℕ) (level : ℕ) (first : Bool) : List Json → Str
  | [] => (if first then [] else newline indent level) ++ [']']
  | e :: es =>
    (if first then newline indent (level + 1) else ',' :: gap indent (level + 1)) ++
      (dumpAt indent (level + 1) e ++ dumpElements indent level false es)

/-- The members of an object, from behind its brace or from behind a member. -/
def dumpMembers (indent : Option ℕ) (level : ℕ) (first : Bool) : List (Str × Json) → Str
  | [] => (if first then [] else newline indent level) ++ ['\x7d']
  | (key, value) :: ms =>
    (if first then newline indent (level + 1) else ',' :: gap indent (level + 1)) ++
      (dumpString key ++ ':' :: ' ' ::
        (dumpAt indent (level + 1) value ++ dumpMembers indent level false ms))

end

/-- `json.dump(value, f, indent=indent)`. -/
def dump (indent : Option ℕ) (value : Json) : Str := dumpAt indent 0 value

/-- The digits of an integer, with its sign. -/
def IsInteger (text : Str) : Prop := IsNatural text ∨ ∃ t, text = '-' :: t ∧ IsNatural t

mutual

/-- Every number in the value is an integer. -/
def Integers : Json → Prop
  | .null => True
  | .bool _ => True
  | .number text => IsInteger text
  | .string _ => True
  | .array elements => AllIntegers elements
  | .object members => MembersIntegers members

def AllIntegers : List Json → Prop
  | [] => True
  | e :: es => Integers e ∧ AllIntegers es

def MembersIntegers : List (Str × Json) → Prop
  | [] => True
  | (_, value) :: ms => Integers value ∧ MembersIntegers ms

end

theorem allIntegers_iff (es : List Json) : AllIntegers es ↔ ∀ e ∈ es, Integers e := by
  induction es with
  | nil => simp [AllIntegers]
  | cons e es ih => simp [AllIntegers, ih]

theorem membersIntegers_iff (ms : List (Str × Json)) :
    MembersIntegers ms ↔ ∀ m ∈ ms, Integers m.2 := by
  induction ms with
  | nil => simp [MembersIntegers]
  | cons m ms ih =>
    obtain ⟨key, value⟩ := m
    simp [MembersIntegers, ih]

/-! ### White space -/

theorem skip_append {w : Str} (hw : ∀ c ∈ w, isSpace c = true) (s : Str) : skip (w ++ s) = skip s :=
  List.dropWhile_append_of_pos hw

theorem isSpace_newline (indent : Option ℕ) (level : ℕ) :
    ∀ c ∈ newline indent level, isSpace c = true := by
  cases indent with
  | none => intro c hc; cases hc
  | some k =>
    intro c hc
    rcases List.mem_cons.mp hc with rfl | hc
    · decide
    · rw [List.eq_of_mem_replicate hc]
      decide

theorem isSpace_gap (indent : Option ℕ) (level : ℕ) : ∀ c ∈ gap indent level, isSpace c = true := by
  cases indent with
  | none =>
    intro c hc
    rw [List.mem_singleton.mp hc]
    decide
  | some k => exact isSpace_newline (some k) level

theorem parseValue_append {w : Str} (hw : ∀ c ∈ w, isSpace c = true) (n : ℕ) (s : Str) :
    parseValue n (w ++ s) = parseValue n s := by
  cases n with
  | zero => rfl
  | succ n => rw [parseValue, parseValue, skip_append hw]

theorem parseElements_append {w : Str} (hw : ∀ c ∈ w, isSpace c = true) (n : ℕ) (s : Str) :
    parseElements n (w ++ s) = parseElements n s := by
  cases n with
  | zero => rfl
  | succ n => rw [parseElements, parseElements, parseValue_append hw]

theorem parseMembers_append {w : Str} (hw : ∀ c ∈ w, isSpace c = true) (n : ℕ) (s : Str) :
    parseMembers n (w ++ s) = parseMembers n s := by
  cases n with
  | zero => rfl
  | succ n => rw [parseMembers, parseMembers, parseKey, parseKey, skip_append hw]

/-! ### Numbers -/

/-- What does not go on with a number. -/
def Ends (rest : Str) : Prop :=
  ∀ c ∈ rest.head?, c.isDigit = false ∧ c ≠ '.' ∧ c ≠ 'e' ∧ c ≠ 'E'

theorem digits_append {text rest : Str} (h : text.all Char.isDigit = true) (hrest : Ends rest) :
    digits (text ++ rest) = (text, rest) := by
  rw [List.all_eq_true] at h
  rw [digits, List.takeWhile_append_of_pos h, List.dropWhile_append_of_pos h]
  cases rest with
  | nil => simp
  | cons c rest =>
    have hc : ¬ c.isDigit = true := by simp [(hrest c rfl).1]
    rw [List.takeWhile_cons_of_neg hc, List.dropWhile_cons_of_neg hc, List.append_nil]

theorem parseFraction_ends {rest : Str} (hrest : Ends rest) :
    parseFraction rest = some ([], rest) := by
  unfold parseFraction
  split
  · next s => exact absurd rfl (hrest '.' rfl).2.1
  · rfl

theorem parseExponent_ends {rest : Str} (hrest : Ends rest) :
    parseExponent rest = some ([], rest) := by
  cases rest with
  | nil => rfl
  | cons c rest =>
    obtain ⟨-, -, he, hE⟩ := hrest c rfl
    rw [parseExponent, if_neg (not_or.mpr ⟨he, hE⟩)]

theorem parseUnsigned_natural {text rest : Str} (h : IsNatural text) (hrest : Ends rest) :
    parseUnsigned (text ++ rest) = some (text, rest) := by
  obtain ⟨hne, hdigits, hzero⟩ := h
  obtain ⟨d, ds, rfl⟩ := List.exists_cons_of_ne_nil hne
  have hintegral : parseIntegral (d :: ds ++ rest) = some (d :: ds, rest) := by
    rw [List.cons_append, parseIntegral]
    split
    · next hd =>
      subst hd
      obtain ⟨-, rfl⟩ := List.cons.inj (hzero rfl)
      rfl
    · have hd : d.isDigit = true := List.all_eq_true.mp hdigits d List.mem_cons_self
      rw [if_pos hd, ← List.cons_append, digits_append hdigits hrest]
  rw [parseUnsigned, hintegral]
  dsimp only [Option.bind_eq_bind, Option.bind_some]
  rw [parseFraction_ends hrest]
  dsimp only [Option.bind_some]
  rw [parseExponent_ends hrest]
  simp

/-- The first character of an integer. -/
theorem exists_head_of_isInteger {text : Str} (h : IsInteger text) :
    ∃ c t, text = c :: t ∧ (c.isDigit = true ∨ c = '-') := by
  rcases h with ⟨hne, hdigits, -⟩ | ⟨t, rfl, -⟩
  · obtain ⟨d, ds, rfl⟩ := List.exists_cons_of_ne_nil hne
    exact ⟨d, ds, rfl, .inl (List.all_eq_true.mp hdigits d List.mem_cons_self)⟩
  · exact ⟨'-', t, rfl, .inr rfl⟩

theorem ne_of_isDigit_or {c d : Char} (h : c.isDigit = true ∨ c = '-') (hd : d.isDigit = false)
    (hsign : d ≠ '-') : c ≠ d := by
  rintro rfl
  rcases h with h | h
  · rw [hd] at h
    cases h
  · exact hsign h

theorem parseNumber_integer {text rest : Str} (h : IsInteger text) (hrest : Ends rest) :
    parseNumber (text ++ rest) = some (text, rest) := by
  rcases h with h | ⟨t, rfl, h⟩
  · have hunsigned := parseUnsigned_natural h hrest
    obtain ⟨d, ds, rfl⟩ := List.exists_cons_of_ne_nil h.1
    have hd : d ≠ '-' := by
      rintro rfl
      have hsign := List.all_eq_true.mp h.2.1 '-' List.mem_cons_self
      exact absurd hsign (by decide)
    rw [List.cons_append] at hunsigned ⊢
    unfold parseNumber
    split
    · next heq => exact absurd (List.cons.inj heq).1 hd
    · exact hunsigned
  · rw [List.cons_append, parseNumber, parseUnsigned_natural h hrest]
    rfl

/-- A value that starts with a digit or a sign is a number. -/
theorem parseValue_integer (n : ℕ) {text rest : Str} (h : IsInteger text) (hrest : Ends rest) :
    parseValue (n + 1) (text ++ rest) = some (.number text, rest) := by
  have hnumber := parseNumber_integer h hrest
  obtain ⟨c, t, rfl, hc⟩ := exists_head_of_isInteger h
  have hspace : isSpace c = false := by
    simp only [isSpace, decide_eq_false_iff_not, not_or]
    exact ⟨ne_of_isDigit_or hc (by decide) (by decide), ne_of_isDigit_or hc (by decide) (by decide),
      ne_of_isDigit_or hc (by decide) (by decide), ne_of_isDigit_or hc (by decide) (by decide)⟩
  rw [List.cons_append] at hnumber ⊢
  have hne : ∀ d : Char, d.isDigit = false → d ≠ '-' → ∀ {u v : Str}, c :: u = d :: v → False :=
    fun d hd hsign u v heq => ne_of_isDigit_or hc hd hsign (List.cons.inj heq).1
  rw [parseValue, skip_cons hspace]
  split
  · next heq => exact (hne _ (by decide) (by decide) heq).elim
  · next heq => exact (hne _ (by decide) (by decide) heq).elim
  · next heq => exact (hne _ (by decide) (by decide) heq).elim
  · next heq => exact (hne _ (by decide) (by decide) heq).elim
  · next heq => exact (hne _ (by decide) (by decide) heq).elim
  · next heq => exact (hne _ (by decide) (by decide) heq).elim
  · rw [hnumber]
    rfl

/-! ### Reading back -/

/-- What stands behind a bracket. -/
theorem parseValue_bracket (n : ℕ) (s : Str) :
    parseValue (n + 1) ('[' :: s) =
      match skip s with
      | ']' :: s => some (.array [], s)
      | s => (parseElements n s).map fun r : List Json × Str => (.array r.1, r.2) := by
  rw [parseValue, skip_cons (by decide)]
  rfl

theorem parseValue_array {n : ℕ} {s t : Str} {c : Char} (h : skip s = c :: t) (hc : c ≠ ']') :
    parseValue (n + 1) ('[' :: s) =
      (parseElements n (c :: t)).map fun r : List Json × Str => (.array r.1, r.2) := by
  rw [parseValue_bracket, h]
  split
  · next heq => exact absurd (List.cons.inj heq).1 hc
  · rfl

/-- What stands behind a brace. -/
theorem parseValue_brace (n : ℕ) (s : Str) :
    parseValue (n + 1) ('\x7b' :: s) =
      match skip s with
      | '\x7d' :: s => some (.object [], s)
      | s => (parseMembers n s).map fun r : List (Str × Json) × Str => (.object r.1, r.2) := by
  rw [parseValue, skip_cons (by decide)]
  rfl

theorem parseValue_object {n : ℕ} {s t : Str} {c : Char} (h : skip s = c :: t) (hc : c ≠ '\x7d') :
    parseValue (n + 1) ('\x7b' :: s) =
      (parseMembers n (c :: t)).map fun r : List (Str × Json) × Str => (.object r.1, r.2) := by
  rw [parseValue_brace, h]
  split
  · next heq => exact absurd (List.cons.inj heq).1 hc
  · rfl

/-- A text of a value starts with a character that is neither white space nor closes
anything. -/
theorem exists_head (indent : Option ℕ) (level : ℕ) {v : Json} (h : Integers v) :
    ∃ c t, dumpAt indent level v = c :: t ∧ isSpace c = false ∧ c ≠ ']' ∧ c ≠ '\x7d' := by
  cases v with
  | null => exact ⟨'n', "ull".toList, rfl, by decide, by decide, by decide⟩
  | bool b =>
    cases b with
    | true => exact ⟨'t', "rue".toList, rfl, by decide, by decide, by decide⟩
    | false => exact ⟨'f', "alse".toList, rfl, by decide, by decide, by decide⟩
  | number text =>
    obtain ⟨c, t, rfl, hc⟩ := exists_head_of_isInteger h
    refine ⟨c, t, rfl, ?_, ne_of_isDigit_or hc (by decide) (by decide),
      ne_of_isDigit_or hc (by decide) (by decide)⟩
    simp only [isSpace, decide_eq_false_iff_not, not_or]
    exact ⟨ne_of_isDigit_or hc (by decide) (by decide),
      ne_of_isDigit_or hc (by decide) (by decide), ne_of_isDigit_or hc (by decide) (by decide),
      ne_of_isDigit_or hc (by decide) (by decide)⟩
  | string s => exact ⟨'"', escaped s ++ ['"'], rfl, by decide, by decide, by decide⟩
  | array es => exact ⟨'[', _, rfl, by decide, by decide, by decide⟩
  | object ms => exact ⟨'\x7b', _, rfl, by decide, by decide, by decide⟩

/-- What a text in front of a value is read as. -/
def ReadsBack (indent : Option ℕ) (v : Json) : Prop :=
  ∀ level n rest, (dumpAt indent level v).length ≤ n → Ends rest →
    parseValue n (dumpAt indent level v ++ rest) = some (v, rest)

theorem ends_of_head {c : Char} {t : Str} (h : c = ',' ∨ c = ']' ∨ c = '\x7d' ∨ c = '\n') :
    Ends (c :: t) := by
  intro d hd
  cases hd
  rcases h with rfl | rfl | rfl | rfl <;> decide

/-- What closes a list ends a number, too. -/
theorem ends_close (indent : Option ℕ) (level : ℕ) {c : Char} (hc : c = ']' ∨ c = '\x7d')
    (t : Str) :
    Ends (newline indent level ++ c :: t) := by
  cases indent with
  | none => exact ends_of_head (.inr (hc.imp id .inl))
  | some k => exact ends_of_head (.inr (.inr (.inr rfl)))

theorem length_dumpElements_pos (indent : Option ℕ) (level : ℕ) (first : Bool) (es : List Json) :
    0 < (dumpElements indent level first es).length := by
  induction es generalizing first with
  | nil => simp [dumpElements]
  | cons e es ih =>
    have hrest := ih false
    simp only [dumpElements, List.length_append]
    omega

theorem length_dumpMembers_pos (indent : Option ℕ) (level : ℕ) (first : Bool)
    (ms : List (Str × Json)) : 0 < (dumpMembers indent level first ms).length := by
  induction ms generalizing first with
  | nil => simp [dumpMembers]
  | cons m ms ih =>
    obtain ⟨key, value⟩ := m
    have hrest := ih false
    simp only [dumpMembers, List.length_append, List.length_cons]
    omega

/-- The elements of an array, from the first of them on. -/
theorem parseElements_dumpElements {indent : Option ℕ} {e : Json} {es : List Json}
    (h : ∀ v ∈ e :: es, ReadsBack indent v) (level : ℕ) {n : ℕ} (rest : Str)
    (hn : (dumpAt indent (level + 1) e ++ dumpElements indent level false es).length ≤ n) :
    parseElements n (dumpAt indent (level + 1) e ++ (dumpElements indent level false es ++ rest)) =
      some (e :: es, rest) := by
  induction es generalizing e n with
  | nil =>
    have hclose : dumpElements indent level false [] ++ rest =
        newline indent level ++ ']' :: rest := by
      rw [dumpElements, List.append_assoc]
      rfl
    rw [List.length_append] at hn
    have hpos := length_dumpElements_pos indent level false []
    obtain ⟨m, rfl⟩ := Nat.exists_eq_succ_of_ne_zero (show n ≠ 0 by omega)
    have hvalue := h e List.mem_cons_self (level + 1) m (newline indent level ++ ']' :: rest)
      (by omega) (ends_close indent level (.inl rfl) rest)
    rw [parseElements, hclose, hvalue]
    dsimp only [Option.bind_eq_bind, Option.bind_some]
    rw [skip_append (isSpace_newline indent level), skip_cons (by decide)]
    rfl
  | cons e' es ih =>
    have hcomma : dumpElements indent level false (e' :: es) ++ rest =
        ',' :: (gap indent (level + 1) ++ (dumpAt indent (level + 1) e' ++
          (dumpElements indent level false es ++ rest))) := by
      simp [dumpElements]
    rw [List.length_append] at hn
    simp only [dumpElements, Bool.false_eq_true, if_false, List.length_append,
      List.length_cons] at hn
    obtain ⟨m, rfl⟩ := Nat.exists_eq_succ_of_ne_zero (show n ≠ 0 by omega)
    have hvalue := h e List.mem_cons_self (level + 1) m _ (by omega)
      (ends_of_head (.inl rfl) : Ends (',' :: (gap indent (level + 1) ++
        (dumpAt indent (level + 1) e' ++ (dumpElements indent level false es ++ rest)))))
    have hrest := ih (fun v hv => h v (List.mem_cons_of_mem _ hv)) (n := m)
      (by rw [List.length_append]; omega)
    rw [parseElements, hcomma, hvalue]
    dsimp only [Option.bind_eq_bind, Option.bind_some]
    rw [skip_cons (by decide)]
    show (parseElements m (gap indent (level + 1) ++ _)).map _ = _
    rw [parseElements_append (isSpace_gap indent (level + 1)), hrest]
    rfl

/-- A key is read back. -/
theorem parseKey_dumpString (key rest : Str) :
    parseKey (dumpString key ++ ':' :: rest) = some (key, rest) := by
  have hquote : dumpString key ++ ':' :: rest = '"' :: (escaped key ++ '"' :: ':' :: rest) := by
    simp [dumpString]
  rw [hquote, parseKey_eq (skip_cons (by decide) _), parseString_escaped]
  rfl

/-- The members of an object, from the first of them on. -/
theorem parseMembers_dumpMembers {indent : Option ℕ} {key : Str} {value : Json}
    {ms : List (Str × Json)} (h : ∀ m ∈ (key, value) :: ms, ReadsBack indent m.2) (level : ℕ)
    {n : ℕ} (rest : Str)
    (hn : (dumpString key ++ ':' :: ' ' :: (dumpAt indent (level + 1) value ++
      dumpMembers indent level false ms)).length ≤ n) :
    parseMembers n (dumpString key ++ ':' :: ' ' :: (dumpAt indent (level + 1) value ++
      (dumpMembers indent level false ms ++ rest))) = some ((key, value) :: ms, rest) := by
  have hblank : ∀ c ∈ [' '], isSpace c = true := isSpace_gap none level
  induction ms generalizing key value n with
  | nil =>
    have hback : ReadsBack indent value := h (key, value) List.mem_cons_self
    have hclose : dumpMembers indent level false [] ++ rest =
        newline indent level ++ '\x7d' :: rest := by
      rw [dumpMembers, List.append_assoc]
      rfl
    simp only [List.length_append, List.length_cons] at hn
    obtain ⟨m, rfl⟩ := Nat.exists_eq_succ_of_ne_zero (show n ≠ 0 by omega)
    have hvalue := hback (level + 1) m (newline indent level ++ '\x7d' :: rest) (by omega)
      (ends_close indent level (.inr rfl) rest)
    rw [hclose, parseMembers_eq (parseKey_dumpString key _), ← List.singleton_append,
      parseValue_append hblank, hvalue, Option.bind_some,
      skip_append (isSpace_newline indent level), skip_cons (by decide)]
    rfl
  | cons m' ms ih =>
    obtain ⟨key', value'⟩ := m'
    have hback : ReadsBack indent value := h (key, value) List.mem_cons_self
    have hcomma : dumpMembers indent level false ((key', value') :: ms) ++ rest =
        ',' :: (gap indent (level + 1) ++ (dumpString key' ++ ':' :: ' ' ::
          (dumpAt indent (level + 1) value' ++ (dumpMembers indent level false ms ++ rest)))) := by
      simp [dumpMembers]
    simp only [dumpMembers, Bool.false_eq_true, if_false, List.length_append,
      List.length_cons] at hn
    obtain ⟨m, rfl⟩ := Nat.exists_eq_succ_of_ne_zero (show n ≠ 0 by omega)
    have hvalue := hback (level + 1) m _ (by omega)
      (ends_of_head (.inl rfl) : Ends (',' :: (gap indent (level + 1) ++ (dumpString key' ++
        ':' :: ' ' :: (dumpAt indent (level + 1) value' ++
          (dumpMembers indent level false ms ++ rest))))))
    have hrest := ih (fun v hv => h v (List.mem_cons_of_mem _ hv)) (n := m)
      (by simp only [List.length_append, List.length_cons]; omega)
    rw [hcomma, parseMembers_eq (parseKey_dumpString key _), ← List.singleton_append (x := ' '),
      parseValue_append hblank, hvalue, Option.bind_some, skip_cons (by decide)]
    show (parseMembers m (gap indent (level + 1) ++ _)).map _ = _
    rw [parseMembers_append (isSpace_gap indent (level + 1)), hrest]
    rfl

theorem readsBack_array {indent : Option ℕ} {es : List Json}
    (h : ∀ v ∈ es, Integers v ∧ ReadsBack indent v) : ReadsBack indent (.array es) := by
  intro level n rest hn hrest
  rw [dumpAt, List.length_cons] at hn
  obtain ⟨m, rfl⟩ := Nat.exists_eq_succ_of_ne_zero (show n ≠ 0 by omega)
  cases es with
  | nil =>
    have hempty : dumpAt indent level (.array []) ++ rest = '[' :: ']' :: rest := rfl
    rw [hempty, parseValue_bracket, skip_cons (by decide)]
    rfl
  | cons e es =>
    obtain ⟨c, t, hhead, hspace, hc, -⟩ := exists_head indent (level + 1) (h e List.mem_cons_self).1
    have hopen : dumpAt indent level (.array (e :: es)) ++ rest =
        '[' :: (newline indent (level + 1) ++ (dumpAt indent (level + 1) e ++
          (dumpElements indent level false es ++ rest))) := by
      simp [dumpAt, dumpElements]
    have hskip : skip (newline indent (level + 1) ++ (dumpAt indent (level + 1) e ++
        (dumpElements indent level false es ++ rest))) =
          c :: (t ++ (dumpElements indent level false es ++ rest)) := by
      rw [skip_append (isSpace_newline indent (level + 1)), hhead, List.cons_append,
        skip_cons hspace]
    simp only [dumpElements, if_true, List.length_append] at hn
    have hread := parseElements_dumpElements (fun v hv => (h v hv).2) level rest (n := m)
      (by rw [List.length_append]; omega)
    rw [hhead, List.cons_append] at hread
    rw [hopen, parseValue_array hskip hc, hread]
    rfl

theorem readsBack_object {indent : Option ℕ} {ms : List (Str × Json)}
    (h : ∀ m ∈ ms, ReadsBack indent m.2) : ReadsBack indent (.object ms) := by
  intro level n rest hn hrest
  rw [dumpAt, List.length_cons] at hn
  obtain ⟨m, rfl⟩ := Nat.exists_eq_succ_of_ne_zero (show n ≠ 0 by omega)
  cases ms with
  | nil =>
    have hempty : dumpAt indent level (.object []) ++ rest = '\x7b' :: '\x7d' :: rest := rfl
    rw [hempty, parseValue_brace, skip_cons (by decide)]
    rfl
  | cons member ms =>
    obtain ⟨key, value⟩ := member
    have hopen : dumpAt indent level (.object ((key, value) :: ms)) ++ rest =
        '\x7b' :: (newline indent (level + 1) ++ (dumpString key ++ ':' :: ' ' ::
          (dumpAt indent (level + 1) value ++ (dumpMembers indent level false ms ++ rest)))) := by
      simp [dumpAt, dumpMembers]
    have hskip : skip (newline indent (level + 1) ++ (dumpString key ++ ':' :: ' ' ::
        (dumpAt indent (level + 1) value ++ (dumpMembers indent level false ms ++ rest)))) =
          '"' :: (escaped key ++ ['"'] ++ ':' :: ' ' ::
            (dumpAt indent (level + 1) value ++ (dumpMembers indent level false ms ++ rest))) := by
      rw [skip_append (isSpace_newline indent (level + 1)), dumpString, List.cons_append,
        skip_cons (by decide)]
    simp only [dumpMembers, if_true, List.length_append, List.length_cons] at hn
    have hread := parseMembers_dumpMembers h level rest (n := m)
      (by simp only [List.length_append, List.length_cons]; omega)
    rw [dumpString, List.cons_append] at hread
    rw [hopen, parseValue_object hskip (by decide), hread]
    rfl

/-- **A value is read back** from the start of a text. -/
theorem readsBack (indent : Option ℕ) (v : Json) (h : Integers v) : ReadsBack indent v := by
  match v with
  | .null =>
    intro level n rest hn _
    obtain ⟨m, rfl⟩ := Nat.exists_eq_succ_of_ne_zero (show n ≠ 0 by rintro rfl; cases hn)
    rfl
  | .bool b =>
    intro level n rest hn _
    cases b with
    | true =>
      obtain ⟨m, rfl⟩ := Nat.exists_eq_succ_of_ne_zero (show n ≠ 0 by rintro rfl; cases hn)
      rfl
    | false =>
      obtain ⟨m, rfl⟩ := Nat.exists_eq_succ_of_ne_zero (show n ≠ 0 by rintro rfl; cases hn)
      rfl
  | .number text =>
    intro level n rest hn hrest
    obtain ⟨c, t, rfl, -⟩ := exists_head_of_isInteger h
    obtain ⟨m, rfl⟩ := Nat.exists_eq_succ_of_ne_zero (show n ≠ 0 by rintro rfl; cases hn)
    exact parseValue_integer m h hrest
  | .string s =>
    intro level n rest hn _
    obtain ⟨m, rfl⟩ := Nat.exists_eq_succ_of_ne_zero (show n ≠ 0 by rintro rfl; cases hn)
    have hquote : dumpAt indent level (.string s) ++ rest = '"' :: (escaped s ++ '"' :: rest) := by
      simp [dumpAt, dumpString]
    rw [hquote, parseValue, skip_cons (by decide)]
    show (parseString (escaped s ++ '"' :: rest)).map _ = _
    rw [parseString_escaped]
    rfl
  | .array es =>
    have hes := (allIntegers_iff es).mp h
    exact readsBack_array fun v hv => ⟨hes v hv, readsBack indent v (hes v hv)⟩
  | .object ms =>
    have hms := (membersIntegers_iff ms).mp h
    exact readsBack_object fun m hm => readsBack indent m.2 (hms m hm)
termination_by sizeOf v
decreasing_by
  · have hlt := List.sizeOf_lt_of_mem hv
    simp only [Json.array.sizeOf_spec]
    omega
  · have hlt := List.sizeOf_lt_of_mem hm
    have hsnd : sizeOf m.2 < sizeOf m := by
      obtain ⟨key, value⟩ := m
      simp only [Prod.mk.sizeOf_spec]
      omega
    simp only [Json.object.sizeOf_spec]
    omega

/-- **Reading inverts writing**, on one line or indented. -/
theorem parse_dump (indent : Option ℕ) {v : Json} (h : Integers v) :
    parse (dump indent v) = some v := by
  have hread := readsBack indent v h 0 ((dump indent v).length + 1) [] (Nat.le_succ _)
    (fun c hc => by cases hc)
  rw [List.append_nil] at hread
  rw [parse_eq_some_iff]
  exact ⟨[], hread, rfl⟩

/-! ### Integers and strings -/

theorem isNatural_toDigits (n : ℕ) : IsNatural (Nat.toDigits 10 n) := by
  refine ⟨Nat.toDigits_ne_nil, ?_, ?_⟩
  · exact List.all_eq_true.mpr fun c hc => Nat.isDigit_of_mem_toDigits (by decide) (by decide) hc
  · -- a leading zero would have been divided away
    induction n using Nat.strongRecOn with
    | _ n ih =>
      intro hhead
      by_cases hsmall : n < 10
      · rw [Nat.toDigits_of_lt_base hsmall] at hhead ⊢
        exact congrArg (fun c => [c]) (Option.some.inj hhead)
      · rw [Nat.toDigits_of_base_le (by decide) (by omega),
          List.head?_append_of_ne_nil _ Nat.toDigits_ne_nil] at hhead
        have hzero := congrArg (Nat.ofDigitChars 10 · 0) (ih (n / 10) (by omega) hhead)
        simp only [Nat.ofDigitChars_ten_toDigits] at hzero
        have hvalue : Nat.ofDigitChars 10 ['0'] 0 = 0 := by decide
        omega

/-- An integer as a number. -/
def ofInt (z : ℤ) : Json :=
  .number (if 0 ≤ z then Nat.toDigits 10 z.toNat else '-' :: Nat.toDigits 10 (-z).toNat)

/-- The integer of some digits, with or without a sign. -/
def integer? : Str → Option ℤ
  | '-' :: t => if IsNatural t then some (-(Nat.ofDigitChars 10 t 0 : ℕ)) else none
  | t => if IsNatural t then some (Nat.ofDigitChars 10 t 0 : ℕ) else none

/-- The integer of a number. -/
def int? : Json → Option ℤ
  | .number text => integer? text
  | _ => none

def string? : Json → Option Str
  | .string s => some s
  | _ => none

def strings? : Json → Option (List Str)
  | .array elements => elements.mapM string?
  | _ => none

def bool? : Json → Option Bool
  | .bool b => some b
  | _ => none

theorem integers_ofInt (z : ℤ) : Integers (ofInt z) := by
  unfold ofInt Integers
  split
  · exact .inl (isNatural_toDigits _)
  · exact .inr ⟨_, rfl, isNatural_toDigits _⟩

theorem integer?_toDigits (n : ℕ) : integer? (Nat.toDigits 10 n) = some (n : ℤ) := by
  have hnat := isNatural_toDigits n
  unfold integer?
  split
  · next t heq =>
    have hsign := List.all_eq_true.mp hnat.2.1 '-' (by rw [heq]; exact List.mem_cons_self)
    exact absurd hsign (by decide)
  · rw [if_pos hnat, Nat.ofDigitChars_ten_toDigits]

/-- An integer is read back from its digits. -/
theorem int?_ofInt (z : ℤ) : int? (ofInt z) = some z := by
  show integer? (if 0 ≤ z then _ else _) = some z
  by_cases hz : 0 ≤ z
  · rw [if_pos hz, integer?_toDigits, Int.toNat_of_nonneg hz]
  · rw [if_neg hz, integer?, if_pos (isNatural_toDigits _), Nat.ofDigitChars_ten_toDigits]
    simp only [Option.some.injEq]
    omega

theorem strings?_map (l : List Str) : strings? (.array (l.map .string)) = some l := by
  rw [strings?, List.mapM_map]
  show l.mapM some = some l
  induction l with
  | nil => rfl
  | cons s l ih => rw [List.mapM_cons, ih]; rfl

end Json
end Dfuser
