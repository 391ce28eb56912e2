import Mathlib.Data.List.TakeWhile
import Dfuser.Lib.Text

/-!
# JSON

Reading a JSON text.  A string is read in two steps: its raw text ends at the first quote
that no backslash stands before, and then the escapes in it are replaced.  A lone
surrogate is no character, and a text with one is not read.

## Main definitions

* `Json`, `Json.parse` — values, and the value of a text.
* `closing`, `unescape` — the raw text of a string, and what it stands for.
* `escapeQuotes` — a text with a backslash before every quote.
* `weight` — the length of a text and the number of its quotes and backslashes.

## Main results

* `weight_le_of_unescape` — an escape is longer than what it stands for.
* `unescape_escapeQuotes` — **which texts come back when only quotes are escaped.**
* `closing_escapeQuotes` — where such a string ends.
-/

namespace Dfuser

/-- A JSON value; a number is kept as it is written. -/
inductive Json
  | null
  | bool (b : Bool)
  | number (text : Str)
  | string (s : Str)
  | array (elements : List Json)
  | object (members : List (Str × Json))

namespace Json

/-! ### Strings -/

/-- The raw text of a string up to the quote that closes it, and what follows.  The flag
says that a backslash has been read. -/
def closing : Bool → Str → Option (Str × Str)
  | _, [] => none
  | true, c :: s => (closing false s).map fun r => (c :: r.1, r.2)
  | false, c :: s =>
    if c = '"' then some ([], s)
    else (closing (decide (c = '\\')) s).map fun r => (c :: r.1, r.2)

/-- The value of a hexadecimal digit. -/
def hexDigit? (c : Char) : Option ℕ :=
  if c.isDigit then some (c.toNat - '0'.toNat)
  else if 'a' ≤ c ∧ c ≤ 'f' then some (c.toNat - 'a'.toNat + 10)
  else if 'A' ≤ c ∧ c ≤ 'F' then some (c.toNat - 'A'.toNat + 10)
  else none

/-- Four hexadecimal digits. -/
def hex4? : Str → Option ℕ
  | a :: b :: c :: d :: _ => do
    let a ← hexDigit? a
    let b ← hexDigit? b
    let c ← hexDigit? c
    let d ← hexDigit? d
    return ((a * 16 + b) * 16 + c) * 16 + d
  | _ => none

/-- The character after `\u`, and the length of its digits. -/
def unicode? (s : Str) : Option (Char × ℕ) := do
  let n ← hex4? s
  if 0xD800 ≤ n ∧ n < 0xDC00 then
    match s.drop 4 with
    | '\\' :: 'u' :: t => do
      let m ← hex4? t
      if 0xDC00 ≤ m ∧ m < 0xE000 then
        some (Char.ofNat (0x10000 + (n - 0xD800) * 0x400 + (m - 0xDC00)), 10)
      else none
    | _ => none
  else if 0xDC00 ≤ n ∧ n < 0xE000 then none
  else some (Char.ofNat n, 4)

/-- The character that a backslash and what follows it stand for, and how much of what
follows belongs to it. -/
def escape? : Str → Option (Char × ℕ)
  | [] => none
  | c :: s =>
    if c = '"' ∨ c = '\\' ∨ c = '/' then some (c, 1)
    else if c = 'b' then some (Char.ofNat 8, 1)
    else if c = 'f' then some (Char.ofNat 12, 1)
    else if c = 'n' then some ('\n', 1)
    else if c = 'r' then some ('\r', 1)
    else if c = 't' then some ('\t', 1)
    else if c = 'u' then (unicode? s).map fun r => (r.1, r.2 + 1)
    else none

/-- The text without its escapes, the first characters being skipped. -/
def unescapeFrom : ℕ → Str → Option Str
  | _, [] => some []
  | k + 1, _ :: s => unescapeFrom k s
  | 0, c :: s =>
    if c = '\\' then
      match escape? s with
      | some (d, k) => (unescapeFrom k s).map (d :: ·)
      | none => none
    else if c = '"' ∨ c.toNat < 32 then none
    else (unescapeFrom 0 s).map (c :: ·)

/-- What the raw text of a string stands for. -/
def unescape (raw : Str) : Option Str := unescapeFrom 0 raw

/-- A string, from behind the quote that opens it. -/
def parseString (s : Str) : Option (Str × Str) := do
  let (raw, rest) ← closing false s
  let text ← unescape raw
  return (text, rest)

/-! ### Numbers -/

/-- The digits at the start of a text, and what follows. -/
def digits (s : Str) : Str × Str := (s.takeWhile Char.isDigit, s.dropWhile Char.isDigit)

/-- The integral part of a number. -/
def parseIntegral : Str → Option (Str × Str)
  | [] => none
  | c :: s =>
    if c = '0' then some (['0'], s) else if c.isDigit then some (digits (c :: s)) else none

/-- The fraction of a number, if there is one. -/
def parseFraction : Str → Option (Str × Str)
  | '.' :: s => if (digits s).1 = [] then none else some ('.' :: (digits s).1, (digits s).2)
  | s => some ([], s)

/-- The sign of an exponent, if there is one. -/
def parseSign : Str → Str × Str
  | '+' :: s => (['+'], s)
  | '-' :: s => (['-'], s)
  | s => ([], s)

/-- The exponent of a number, if there is one. -/
def parseExponent : Str → Option (Str × Str)
  | [] => some ([], [])
  | c :: s =>
    if c = 'e' ∨ c = 'E' then
      let (sign, t) := parseSign s
      if (digits t).1 = [] then none else some (c :: sign ++ (digits t).1, (digits t).2)
    else some ([], c :: s)

/-- A number without its sign. -/
def parseUnsigned (s : Str) : Option (Str × Str) := do
  let (integral, s) ← parseIntegral s
  let (fraction, s) ← parseFraction s
  let (exponent, s) ← parseExponent s
  return (integral ++ fraction ++ exponent, s)

def parseNumber : Str → Option (Str × Str)
  | '-' :: s => (parseUnsigned s).map fun r => ('-' :: r.1, r.2)
  | s => parseUnsigned s

/-! ### Values -/

def isSpace (c : Char) : Bool := c = ' ' ∨ c = '\t' ∨ c = '\n' ∨ c = '\r'

/-- The text without white space at its start. -/
def skip (s : Str) : Str := s.dropWhile isSpace

/-- A key, up to the colon behind it. -/
def parseKey (s : Str) : Option (Str × Str) :=
  match skip s with
  | '"' :: s => do
    let (key, s) ← parseString s
    match skip s with
    | ':' :: s => some (key, s)
    | _ => none
  | _ => none

mutual

/-- A value at the start of a text, and what follows.  Each value and each member takes
one of the rounds. -/
def parseValue : ℕ → Str → Option (Json × Str)
  | 0, _ => none
  | n + 1, s =>
    match skip s with
    | '"' :: s => (parseString s).map fun r => (.string r.1, r.2)
    | '\x7b' :: s =>
      match skip s with
      | '\x7d' :: s => some (.object [], s)
      | s => (parseMembers n s).map fun r => (.object r.1, r.2)
    | '[' :: s =>
      match skip s with
      | ']' :: s => some (.array [], s)
      | s => (parseElements n s).map fun r => (.array r.1, r.2)
    | 't' :: 'r' :: 'u' :: 'e' :: s => some (.bool true, s)
    | 'f' :: 'a' :: 'l' :: 's' :: 'e' :: s => some (.bool false, s)
    | 'n' :: 'u' :: 'l' :: 'l' :: s => some (.null, s)
    | s => (parseNumber s).map fun r => (.number r.1, r.2)

/-- The members of an object, up to the brace that closes it. -/
def parseMembers : ℕ → Str → Option (List (Str × Json) × Str)
  | 0, _ => none
  | n + 1, s => do
    let (key, s) ← parseKey s
    let (value, s) ← parseValue n s
    match skip s with
    | ',' :: s => (parseMembers n s).map fun r => ((key, value) :: r.1, r.2)
    | '\x7d' :: s => some ([(key, value)], s)
    | _ => none

/-- The elements of an array, up to the bracket that closes it. -/
def parseElements : ℕ → Str → Option (List Json × Str)
  | 0, _ => none
  | n + 1, s => do
    let (value, s) ← parseValue n s
    match skip s with
    | ',' :: s => (parseElements n s).map fun r => (value :: r.1, r.2)
    | ']' :: s => some ([value], s)
    | _ => none

end

/-- The value of a text. -/
def parse (s : Str) : Option Json := do
  let (value, rest) ← parseValue (s.length + 1) s
  if skip rest = [] then some value else none

/-! ### What escapes stand for -/

/-- The length of a text, its quotes and backslashes counted twice. -/
def weight (s : Str) : ℕ := s.length + s.countP fun c => c = '"' ∨ c = '\\'

@[simp] theorem weight_nil : weight [] = 0 := rfl

theorem weight_cons (c : Char) (s : Str) :
    weight (c :: s) = weight s + if c = '"' ∨ c = '\\' then 2 else 1 := by
  unfold weight
  by_cases hc : c = '"' ∨ c = '\\'
  · rw [if_pos hc, List.countP_cons_of_pos (by simpa using hc), List.length_cons]
    omega
  · rw [if_neg hc, List.countP_cons_of_neg (by simpa using hc), List.length_cons]
    omega

theorem weight_append (s t : Str) : weight (s ++ t) = weight s + weight t := by
  simp only [weight, List.length_append, List.countP_append]
  omega

theorem weight_eq (s : Str) : weight s = s.length + s.count '"' + s.count '\\' := by
  induction s with
  | nil => rfl
  | cons c s ih =>
    rw [weight_cons, ih, List.length_cons, List.count_cons, List.count_cons]
    by_cases hquote : c = '"'
    · subst hquote
      simp
      omega
    · by_cases hback : c = '\\'
      · subst hback
        simp
        omega
      · simp [hquote, hback]
        omega

theorem weight_cons_le (c : Char) (s : Str) : weight (c :: s) ≤ weight s + 2 := by
  rw [weight_cons]
  split <;> omega

theorem length_of_hex4? {s : Str} {n : ℕ} (h : hex4? s = some n) : 4 ≤ s.length := by
  unfold hex4? at h
  split at h
  · simp only [List.length_cons]
    omega
  · cases h

theorem length_of_unicode? {s : Str} {c : Char} {k : ℕ} (h : unicode? s = some (c, k)) :
    k ≤ s.length := by
  obtain ⟨n, hn, h⟩ := Option.bind_eq_some_iff.mp h
  have hfour := length_of_hex4? hn
  split at h
  · split at h
    · next t heq =>
      obtain ⟨m, hm, h⟩ := Option.bind_eq_some_iff.mp h
      have hfour' := length_of_hex4? hm
      have hlength := congrArg List.length heq
      simp only [List.length_drop, List.length_cons] at hlength
      split at h
      · simp only [Option.some.injEq, Prod.mk.injEq] at h
        omega
      · cases h
    · cases h
  · split at h
    · cases h
    · simp only [Option.some.injEq, Prod.mk.injEq] at h
      omega

/-- An escape takes at least one character, and no more than there are. -/
theorem length_of_escape? {s : Str} {c : Char} {k : ℕ} (h : escape? s = some (c, k)) :
    1 ≤ k ∧ k ≤ s.length := by
  cases s with
  | nil => cases h
  | cons d s =>
    have hone : ∀ {e : Char}, some (e, 1) = some (c, k) → 1 ≤ k ∧ k ≤ (d :: s).length := by
      intro e heq
      simp only [Option.some.injEq, Prod.mk.injEq] at heq
      simp only [List.length_cons]
      omega
    rw [escape?] at h
    iterate 6
      split at h
      · exact hone h
    split at h
    · obtain ⟨⟨e, m⟩, hunicode, heq⟩ := Option.map_eq_some_iff.mp h
      have hle := length_of_unicode? hunicode
      simp only [Prod.mk.injEq] at heq
      simp only [List.length_cons]
      omega
    · cases h

/-- **An escape is longer than what it stands for.** -/
theorem weight_le_of_unescapeFrom {k : ℕ} {s d : Str} (hk : k ≤ s.length)
    (h : unescapeFrom k s = some d) : weight d + k ≤ s.length := by
  induction s generalizing k d with
  | nil =>
    rw [unescapeFrom, Option.some.injEq] at h
    subst h
    simpa using hk
  | cons c s ih =>
    rw [List.length_cons] at hk ⊢
    cases k with
    | succ k =>
      rw [unescapeFrom] at h
      have := ih (by omega) h
      omega
    | zero =>
      rw [unescapeFrom] at h
      split at h
      · split at h
        · next d' m hescape =>
          obtain ⟨hone, hle⟩ := length_of_escape? hescape
          obtain ⟨d'', hd'', rfl⟩ := Option.map_eq_some_iff.mp h
          have hrest := ih hle hd''
          have hcons := weight_cons_le d' d''
          omega
        · cases h
      · next hback =>
        split at h
        · cases h
        · next hbad =>
          rw [not_or] at hbad
          obtain ⟨d'', hd'', rfl⟩ := Option.map_eq_some_iff.mp h
          have hrest := ih (Nat.zero_le _) hd''
          rw [weight_cons, if_neg]
          · omega
          · rw [not_or]
            exact ⟨hbad.1, hback⟩

theorem weight_le_of_unescape {raw d : Str} (h : unescape raw = some d) :
    weight d ≤ raw.length := by
  have hle := weight_le_of_unescapeFrom (Nat.zero_le _) h
  omega

/-! ### Escaping quotes -/

/-- A backslash before every quote. -/
def escapeQuotes (s : Str) : Str := s.flatMap fun c => if c = '"' then ['\\', '"'] else [c]

@[simp] theorem escapeQuotes_nil : escapeQuotes [] = [] := rfl

@[simp] theorem escapeQuotes_quote (s : Str) :
    escapeQuotes ('"' :: s) = '\\' :: '"' :: escapeQuotes s := rfl

theorem escapeQuotes_cons {c : Char} (hc : c ≠ '"') (s : Str) :
    escapeQuotes (c :: s) = c :: escapeQuotes s := by
  rw [escapeQuotes, List.flatMap_cons, if_neg hc]
  rfl

theorem escapeQuotes_append (s t : Str) :
    escapeQuotes (s ++ t) = escapeQuotes s ++ escapeQuotes t := List.flatMap_append

theorem escapeQuotes_of_notMem {s : Str} (h : '"' ∉ s) : escapeQuotes s = s := by
  have hsame : ∀ c ∈ s, (if c = '"' then ['\\', '"'] else [c]) = [c] := by
    intro c hc
    apply if_neg
    rintro rfl
    exact h hc
  rw [escapeQuotes, List.flatMap_congr hsame]
  exact List.flatMap_singleton' s

theorem length_escapeQuotes (s : Str) : (escapeQuotes s).length = s.length + s.count '"' := by
  induction s with
  | nil => rfl
  | cons c s ih =>
    by_cases hc : c = '"'
    · rw [hc, escapeQuotes_quote, List.count_cons_self, List.length_cons, List.length_cons,
        List.length_cons, ih]
      omega
    · rw [escapeQuotes_cons hc, List.count_cons_of_ne hc, List.length_cons, List.length_cons, ih]
      omega

/-- **A text without backslashes and control characters comes back when only its quotes
are escaped**; with a control character no text does. -/
theorem unescape_escapeQuotes {s : Str} (hback : '\\' ∉ s) :
    unescape (escapeQuotes s) = if s.all (32 ≤ ·.toNat) then some s else none := by
  unfold unescape
  induction s with
  | nil => rfl
  | cons c s ih =>
    obtain ⟨hc, hs⟩ := List.ne_and_not_mem_of_not_mem_cons hback
    by_cases hquote : c = '"'
    · subst hquote
      have hescape : escape? ('"' :: escapeQuotes s) = some ('"', 1) := by simp [escape?]
      rw [escapeQuotes_quote, unescapeFrom, if_pos rfl, hescape]
      dsimp only
      rw [unescapeFrom, ih hs]
      have hprintable : 32 ≤ '"'.toNat := by decide
      simp only [List.all_cons, hprintable, decide_true, Bool.true_and]
      split <;> rfl
    · rw [escapeQuotes_cons hquote, unescapeFrom, if_neg (Ne.symm hc), ih hs]
      by_cases hcontrol : c.toNat < 32
      · rw [if_pos (.inr hcontrol), if_neg]
        rw [List.all_cons, Bool.and_eq_true, decide_eq_true_eq]
        omega
      · rw [if_neg (by simp [hquote, hcontrol])]
        have hprintable : 32 ≤ c.toNat := Nat.le_of_not_lt hcontrol
        simp only [List.all_cons, hprintable, decide_true, Bool.true_and]
        split <;> rfl

/-- **Where a string ends whose quotes are escaped**: at the quote behind it, unless the
text has backslashes of its own, by which one of its quotes closes it, or the quote behind
it does not. -/
theorem closing_escapeQuotes {b : Bool} {s rest raw left : Str}
    (h : closing b (escapeQuotes s ++ '"' :: rest) = some (raw, left)) :
    (raw = escapeQuotes s ∧ left = rest) ∨ (∃ t, left = escapeQuotes t ++ '"' :: rest) ∨
      ∃ raw', closing false rest = some (raw', left) := by
  induction s generalizing b raw with
  | nil =>
    cases b with
    | false =>
      simp only [escapeQuotes_nil, List.nil_append, closing, if_true, Option.some.injEq,
        Prod.mk.injEq] at h
      exact .inl ⟨h.1.symm, h.2.symm⟩
    | true =>
      simp only [escapeQuotes_nil, List.nil_append, closing] at h
      obtain ⟨⟨raw', left'⟩, hclosing, heq⟩ := Option.map_eq_some_iff.mp h
      cases heq
      exact .inr (.inr ⟨raw', hclosing⟩)
  | cons c s ih =>
    -- one character of the text, and what the induction says of the others
    have hstep : ∀ {b' : Bool} {raw' : Str} (p : Str), raw = p ++ raw' →
        escapeQuotes (c :: s) = p ++ escapeQuotes s →
        closing b' (escapeQuotes s ++ '"' :: rest) = some (raw', left) →
        (raw = escapeQuotes (c :: s) ∧ left = rest) ∨
          (∃ t, left = escapeQuotes t ++ '"' :: rest) ∨
            ∃ raw', closing false rest = some (raw', left) := by
      intro b' raw' p hraw hescape hclosing
      rcases ih hclosing with ⟨rfl, hleft⟩ | hlater
      · exact .inl ⟨by rw [hraw, hescape], hleft⟩
      · exact .inr hlater
    by_cases hc : c = '"'
    · subst hc
      rw [escapeQuotes_quote, List.cons_append, List.cons_append] at h
      cases b with
      | false =>
        simp only [closing] at h
        obtain ⟨⟨raw₁, left₁⟩, h₁, heq⟩ := Option.map_eq_some_iff.mp h
        obtain ⟨⟨raw₂, left₂⟩, h₂, heq₂⟩ := Option.map_eq_some_iff.mp h₁
        cases heq₂
        cases heq
        exact hstep ['\\', '"'] rfl rfl h₂
      | true =>
        -- the backslash is taken by the one before it, and the quote closes the string
        simp only [closing] at h
        obtain ⟨⟨raw₁, left₁⟩, h₁, heq⟩ := Option.map_eq_some_iff.mp h
        cases heq
        simp only [if_true, Option.some.injEq, Prod.mk.injEq] at h₁
        exact .inr (.inl ⟨s, h₁.2.symm⟩)
    · rw [escapeQuotes_cons hc, List.cons_append] at h
      cases b with
      | false =>
        simp only [closing, if_neg hc] at h
        obtain ⟨⟨raw₁, left₁⟩, h₁, heq⟩ := Option.map_eq_some_iff.mp h
        cases heq
        exact hstep [c] rfl (escapeQuotes_cons hc s) h₁
      | true =>
        simp only [closing] at h
        obtain ⟨⟨raw₁, left₁⟩, h₁, heq⟩ := Option.map_eq_some_iff.mp h
        cases heq
        exact hstep [c] rfl (escapeQuotes_cons hc s) h₁

/-- The raw text of a string, the quote that closes it, and what follows. -/
theorem eq_of_closing {b : Bool} {s raw left : Str} (h : closing b s = some (raw, left)) :
    s = raw ++ '"' :: left := by
  induction s generalizing b raw with
  | nil => cases b <;> cases h
  | cons c s ih =>
    cases b with
    | true =>
      rw [closing] at h
      obtain ⟨⟨raw', left'⟩, hrest, heq⟩ := Option.map_eq_some_iff.mp h
      cases heq
      rw [ih hrest]
      rfl
    | false =>
      rw [closing] at h
      split at h
      · next hc =>
        cases h
        rw [hc]
        rfl
      · obtain ⟨⟨raw', left'⟩, hrest, heq⟩ := Option.map_eq_some_iff.mp h
        cases heq
        rw [ih hrest]
        rfl

/-- A string that ends at the quote behind it is the text of its escapes. -/
theorem unescape_of_parseString {x rest text : Str}
    (h : parseString (x ++ '"' :: rest) = some (text, rest)) : unescape x = some text := by
  obtain ⟨⟨raw, left⟩, hclosing, h⟩ := Option.bind_eq_some_iff.mp h
  obtain ⟨text', hunescape, heq⟩ := Option.bind_eq_some_iff.mp h
  simp only [Option.pure_def, Option.some.injEq, Prod.mk.injEq] at heq
  obtain ⟨rfl, rfl⟩ := heq
  obtain rfl := List.append_cancel_right (eq_of_closing hclosing)
  exact hunescape

/-- Without backslashes a string ends at the quote behind it. -/
theorem closing_escapeQuotes_of_notMem {s : Str} (hback : '\\' ∉ s) (rest : Str) :
    closing false (escapeQuotes s ++ '"' :: rest) = some (escapeQuotes s, rest) := by
  induction s with
  | nil => rfl
  | cons c s ih =>
    obtain ⟨hc, hs⟩ := List.ne_and_not_mem_of_not_mem_cons hback
    by_cases hquote : c = '"'
    · subst hquote
      rw [escapeQuotes_quote, List.cons_append, List.cons_append, closing, if_neg (by decide)]
      have hflag : decide ('\\' = '\\') = true := by decide
      rw [hflag, closing, ih hs]
      rfl
    · rw [escapeQuotes_cons hquote, List.cons_append, closing, if_neg hquote,
        decide_eq_false (Ne.symm hc), ih hs]
      rfl

/-! ### Members of an object -/

theorem skip_cons {c : Char} (hc : isSpace c = false) (s : Str) : skip (c :: s) = c :: s :=
  List.dropWhile_cons_of_neg (by simp [hc])

theorem skip_blank (s : Str) : skip (' ' :: s) = skip s := rfl

/-- A string of which only the quotes are escaped. -/
theorem parseString_escapeQuotes {s : Str} (hback : '\\' ∉ s) (hprintable : ∀ c ∈ s, 32 ≤ c.toNat)
    (rest : Str) : parseString (escapeQuotes s ++ '"' :: rest) = some (s, rest) := by
  rw [parseString, closing_escapeQuotes_of_notMem hback]
  dsimp only [Option.bind_eq_bind, Option.bind_some]
  have hall : s.all (32 ≤ ·.toNat) = true := by simpa using hprintable
  rw [unescape_escapeQuotes hback, if_pos hall]
  rfl

/-- A key starts with a quote. -/
theorem parseKey_eq {t s : Str} (h : skip t = '"' :: s) :
    parseKey t = (parseString s).bind fun r =>
      match skip r.2 with
      | ':' :: s => some (r.1, s)
      | _ => none := by
  rw [parseKey, h]
  rfl

/-- A plain key. -/
theorem parseKey_of_plain {key : Str}
    (hplain : (key.all fun c => c ≠ '"' ∧ c ≠ '\\' ∧ 32 ≤ c.toNat) = true)
    (rest : Str) : parseKey ('"' :: (key ++ '"' :: ':' :: rest)) = some (key, rest) := by
  have hall : ∀ c ∈ key, c ≠ '"' ∧ c ≠ '\\' ∧ 32 ≤ c.toNat := by
    simpa using hplain
  have hescape : escapeQuotes key = key := escapeQuotes_of_notMem fun hc => (hall _ hc).1 rfl
  have hstring :=
    parseString_escapeQuotes (fun hc => (hall _ hc).2.1 rfl) (fun c hc => (hall c hc).2.2)
    (':' :: rest)
  rw [hescape] at hstring
  rw [parseKey_eq (skip_cons (by decide) _), hstring]
  rfl

/-- The member that follows a key. -/
theorem parseMembers_eq {n : ℕ} {s key s' : Str} (hkey : parseKey s = some (key, s')) :
    parseMembers (n + 1) s = (parseValue n s').bind fun r =>
      match skip r.2 with
      | ',' :: s => (parseMembers n s).map fun q => ((key, r.1) :: q.1, q.2)
      | '\x7d' :: s => some ([(key, r.1)], s)
      | _ => none := by
  rw [parseMembers, hkey]
  rfl

theorem parseValue_string (n : ℕ) (s : Str) :
    parseValue (n + 1) (' ' :: '"' :: s) = (parseString s).map fun r => (.string r.1, r.2) := by
  rw [parseValue, skip_blank, skip_cons (by decide)]
  rfl

/-- White space before a quote is in what stands before it. -/
theorem skip_escapeQuotes (t rest : Str) :
    ∃ t', skip (escapeQuotes t ++ '"' :: rest) = escapeQuotes t' ++ '"' :: rest := by
  induction t with
  | nil => exact ⟨[], skip_cons (by decide) rest⟩
  | cons c t ih =>
    by_cases hc : c = '"'
    · refine ⟨c :: t, ?_⟩
      rw [hc, escapeQuotes_quote, List.cons_append]
      exact skip_cons (by decide) _
    · by_cases hspace : isSpace c = true
      · obtain ⟨t', ht'⟩ := ih
        refine ⟨t', ?_⟩
        rw [escapeQuotes_cons hc, List.cons_append, skip, List.dropWhile_cons_of_pos hspace]
        exact ht'
      · refine ⟨c :: t, ?_⟩
        rw [escapeQuotes_cons hc, List.cons_append]
        exact skip_cons (by simpa using hspace) _

/-- After a quote that closes a string too early no key is found, when the quote behind
the string opens nothing that is one. -/
theorem parseKey_escapeQuotes {rest raw left : Str}
    (hclosing : closing false rest = some (raw, left))
    (hleft : ∀ s, skip left ≠ ':' :: s) (t : Str) :
    parseKey (escapeQuotes t ++ '"' :: rest) = none := by
  obtain ⟨t', ht'⟩ := skip_escapeQuotes t rest
  cases t' with
  | nil =>
    rw [parseKey_eq ht', parseString, hclosing]
    dsimp only [Option.bind_eq_bind, Option.bind_some]
    cases unescape raw with
    | none => rfl
    | some key =>
      dsimp only [Option.pure_def, Option.bind_some]
      split
      · next heq => exact absurd heq (hleft _)
      · rfl
  | cons c t' =>
    rw [parseKey, ht']
    by_cases hc : c = '"'
    · rw [hc, escapeQuotes_quote]
      rfl
    · rw [escapeQuotes_cons hc, List.cons_append]
      split
      · next heq => exact absurd (List.cons.inj heq).1 hc
      · rfl

/-- **A member with a string in which only the quotes are escaped**, in an object that is
read to its end: the string ends at the quote behind it. -/
theorem parseMembers_string {n : ℕ} {s key x rest raw left : Str} {c : Char}
    {ms : List (Str × Json)} {last : Str}
    (hkey : parseKey s = some (key, ' ' :: '"' :: (escapeQuotes x ++ '"' :: ',' :: rest)))
    (hclosing : closing false (',' :: rest) = some (raw, c :: left)) (hspace : isSpace c = false)
    (hcomma : c ≠ ',') (hbrace : c ≠ '\x7d') (hcolon : c ≠ ':')
    (h : parseMembers (n + 2) s = some (ms, last)) (hlast : skip last = []) :
    ∃ text ms', parseString (escapeQuotes x ++ '"' :: ',' :: rest) = some (text, ',' :: rest) ∧
      parseMembers (n + 1) rest = some (ms', last) ∧ ms = (key, .string text) :: ms' := by
  rw [parseMembers_eq hkey, parseValue_string] at h
  obtain ⟨r, hr, h⟩ := Option.bind_eq_some_iff.mp h
  obtain ⟨⟨text, after⟩, hstring, rfl⟩ := Option.map_eq_some_iff.mp hr
  obtain ⟨⟨raw₀, after'⟩, hclose, hunescape⟩ := Option.bind_eq_some_iff.mp hstring
  obtain ⟨text', -, heq⟩ := Option.bind_eq_some_iff.mp hunescape
  simp only [Option.pure_def, Option.some.injEq, Prod.mk.injEq] at heq
  obtain ⟨rfl, rfl⟩ := heq
  dsimp only at h
  have hleft : skip (c :: left) = c :: left := skip_cons hspace left
  rcases closing_escapeQuotes hclose with ⟨-, rfl⟩ | ⟨t, rfl⟩ | ⟨raw', hclose'⟩
  · rw [skip_cons (by decide)] at h
    obtain ⟨⟨ms', last'⟩, hms, heq⟩ := Option.map_eq_some_iff.mp h
    simp only [Prod.mk.injEq] at heq
    obtain ⟨rfl, rfl⟩ := heq
    exact ⟨text', ms', hstring, hms, rfl⟩
  · -- the string was closed too early
    obtain ⟨t', ht'⟩ := skip_escapeQuotes t (',' :: rest)
    rw [ht'] at h
    cases t' with
    | nil => cases h
    | cons d t' =>
      by_cases hd : d = '"'
      · rw [hd, escapeQuotes_quote] at h
        cases h
      · rw [escapeQuotes_cons hd, List.cons_append] at h
        split at h
        · next heq =>
          obtain ⟨-, rfl⟩ := List.cons.inj heq
          have hnone : parseMembers (n + 1) (escapeQuotes t' ++ '"' :: ',' :: rest) = none := by
            rw [parseMembers, parseKey_escapeQuotes hclosing]
            · rfl
            · intro s hs
              rw [hleft] at hs
              exact hcolon (List.cons.inj hs).1
          rw [hnone] at h
          cases h
        · next heq =>
          obtain ⟨-, rfl⟩ := List.cons.inj heq
          simp only [Option.some.injEq, Prod.mk.injEq] at h
          obtain ⟨-, rfl⟩ := h
          obtain ⟨t'', ht''⟩ := skip_escapeQuotes t' (',' :: rest)
          rw [ht''] at hlast
          simp at hlast
        · cases h
  · -- the quote behind the string did not close it
    rw [hclosing, Option.some.injEq, Prod.mk.injEq] at hclose'
    obtain ⟨-, rfl⟩ := hclose'
    rw [hleft] at h
    split at h
    · next heq => exact absurd (List.cons.inj heq).1 hcomma
    · next heq => exact absurd (List.cons.inj heq).1 hbrace
    · cases h

/-- Such a member, when its string is read. -/
theorem parseMembers_string_eq {n : ℕ} {s key x rest text : Str}
    (hkey : parseKey s = some (key, ' ' :: '"' :: (x ++ '"' :: ',' :: rest)))
    (hstring : parseString (x ++ '"' :: ',' :: rest) = some (text, ',' :: rest)) :
    parseMembers (n + 2) s =
      (parseMembers (n + 1) rest).map fun r => ((key, .string text) :: r.1, r.2) := by
  rw [parseMembers_eq hkey, parseValue_string, hstring]
  rfl

/-- The last member, a string. -/
theorem parseMembers_string_last {n : ℕ} {s key x rest text : Str}
    (hkey : parseKey s = some (key, ' ' :: '"' :: (x ++ '"' :: '\x7d' :: rest)))
    (hstring : parseString (x ++ '"' :: '\x7d' :: rest) = some (text, '\x7d' :: rest)) :
    parseMembers (n + 2) s = some ([(key, .string text)], rest) := by
  rw [parseMembers_eq hkey, parseValue_string, hstring]
  rfl

/-- The digits of a number, none of them a leading zero. -/
def IsNatural (text : Str) : Prop :=
  text ≠ [] ∧ text.all Char.isDigit = true ∧ (text.head? = some '0' → text = ['0'])

instance (text : Str) : Decidable (IsNatural text) := inferInstanceAs (Decidable (_ ∧ _))

theorem parseUnsigned_of_isNatural {text : Str} (h : IsNatural text) (rest : Str) :
    parseUnsigned (text ++ ',' :: rest) = some (text, ',' :: rest) := by
  obtain ⟨hne, hdigits, hzero⟩ := h
  obtain ⟨d, ds, rfl⟩ := List.exists_cons_of_ne_nil hne
  have hintegral : parseIntegral (d :: ds ++ ',' :: rest) = some (d :: ds, ',' :: rest) := by
    rw [List.cons_append, parseIntegral]
    split
    · next hd =>
      subst hd
      obtain ⟨-, rfl⟩ := List.cons.inj (hzero rfl)
      rfl
    · rw [List.all_eq_true] at hdigits
      have hcomma : Char.isDigit ',' = false := by decide
      rw [if_pos (hdigits d List.mem_cons_self), digits, ← List.cons_append,
        List.takeWhile_append_of_pos hdigits, List.dropWhile_append_of_pos hdigits,
        List.takeWhile_cons_of_neg (by simp [hcomma]),
          List.dropWhile_cons_of_neg (by simp [hcomma]), List.append_nil]
  rw [parseUnsigned, hintegral]
  dsimp only [Option.bind_eq_bind, Option.bind_some]
  have hfraction : parseFraction (',' :: rest) = some ([], ',' :: rest) := rfl
  have hexponent : parseExponent (',' :: rest) = some ([], ',' :: rest) := rfl
  rw [hfraction]
  dsimp only [Option.bind_some]
  rw [hexponent]
  simp

/-- A value that starts with a digit is a number. -/
theorem parseValue_natural (n : ℕ) {text : Str} (h : IsNatural text) (rest : Str) :
    parseValue (n + 1) (' ' :: (text ++ ',' :: rest)) = some (.number text, ',' :: rest) := by
  have hunsigned := parseUnsigned_of_isNatural h rest
  obtain ⟨hne, hdigits, -⟩ := h
  obtain ⟨d, ds, rfl⟩ := List.exists_cons_of_ne_nil hne
  have hd : d.isDigit = true := List.all_eq_true.mp hdigits d List.mem_cons_self
  have hother : ∀ c : Char, c.isDigit = false → d ≠ c := by
    rintro c hc rfl
    rw [hd] at hc
    cases hc
  have hspace : isSpace d = false := by
    simp only [isSpace, decide_eq_false_iff_not, not_or]
    exact ⟨hother _ (by decide), hother _ (by decide), hother _ (by decide), hother _ (by decide)⟩
  rw [List.cons_append] at hunsigned ⊢
  rw [parseValue, skip_blank, skip_cons hspace]
  split
  · next heq => exact absurd (List.cons.inj heq).1 (hother _ (by decide))
  · next heq => exact absurd (List.cons.inj heq).1 (hother _ (by decide))
  · next heq => exact absurd (List.cons.inj heq).1 (hother _ (by decide))
  · next heq => exact absurd (List.cons.inj heq).1 (hother _ (by decide))
  · next heq => exact absurd (List.cons.inj heq).1 (hother _ (by decide))
  · next heq => exact absurd (List.cons.inj heq).1 (hother _ (by decide))
  · unfold parseNumber
    split
    · next heq => exact absurd (List.cons.inj heq).1 (hother _ (by decide))
    · rw [hunsigned]
      rfl

theorem parseMembers_natural {n : ℕ} {s key text rest : Str} (h : IsNatural text)
    (hkey : parseKey s = some (key, ' ' :: (text ++ ',' :: rest))) :
    parseMembers (n + 2) s =
      (parseMembers (n + 1) rest).map fun r => ((key, .number text) :: r.1, r.2) := by
  rw [parseMembers_eq hkey, parseValue_natural n h]
  rfl

theorem parse_eq_some_iff {s : Str} {value : Json} :
    parse s = some value ↔ ∃ rest, parseValue (s.length + 1) s = some (value, rest) ∧
      skip rest = [] := by
  constructor
  · intro h
    obtain ⟨⟨value', rest⟩, hvalue, h⟩ := Option.bind_eq_some_iff.mp h
    dsimp only at h
    split at h
    · next hskip =>
      cases h
      exact ⟨rest, hvalue, hskip⟩
    · cases h
  · rintro ⟨rest, hvalue, hskip⟩
    rw [parse, hvalue]
    exact if_pos hskip

/-- An object with members, when it is read to its end. -/
theorem parse_object_iff {s : Str} {value : Json} :
    parse ('\x7b' :: '"' :: s) = some value ↔ ∃ members rest,
      parseMembers (s.length + 2) ('"' :: s) = some (members, rest) ∧ skip rest = [] ∧
        value = .object members := by
  have hvalue : parseValue (('\x7b' :: '"' :: s).length + 1) ('\x7b' :: '"' :: s) =
      (parseMembers (s.length + 2) ('"' :: s)).map fun r => (.object r.1, r.2) := by
    rw [parseValue, skip_cons (by decide)]
    rfl
  rw [parse_eq_some_iff, hvalue]
  constructor
  · rintro ⟨rest, h, hskip⟩
    obtain ⟨⟨members, rest'⟩, hmembers, heq⟩ := Option.map_eq_some_iff.mp h
    cases heq
    exact ⟨members, rest', hmembers, hskip, rfl⟩
  · rintro ⟨members, rest, hmembers, hskip, rfl⟩
    exact ⟨rest, by rw [hmembers]; rfl, hskip⟩

end Json
end Dfuser
