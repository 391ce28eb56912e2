import Mathlib.Data.List.TakeWhile
import Dfuser.SplitModels.Matches

/-!
# Which class blocks survive the split

A `models.py` is a sequence of class blocks: a header and the indented or blank lines
below it.  Every file the split writes should hold the whole block of its class.  Since
a match is a header and a sequence of units, this is so only for bodies that are made of
units; a blank line at the end of a block even makes the match run into the next header,
and that class is lost.

## Main definitions

* `Block`, `Source`, `Source.text` — the texts in question.
* `Units`, `UnitsAtEnd`, `UnitBodies` — bodies that a match covers.
* `Saved` — every class has a file of its own with its whole block.

## Main results

* `findall_of_unitBodies` — the matches in a source of units are its blocks.
* `saved_of_unitBodies` — **blocks made of units survive**, if no two names agree in
  lower case.
-/

namespace Dfuser
namespace SplitModels

open History (isSpace)

/-! ### Blocks -/

/-- A class block: a header line `class Name(bases):` and the lines of its body, each
indented or blank. -/
structure Block (w : WordClass) where
  name : Str
  bases : Str
  lines : List Str
  name_ok : name ≠ [] ∧ ∀ a ∈ name, w.isWord a = true
  bases_line : '\n' ∉ bases
  lines_ne : lines ≠ []
  lines_ok : ∀ l ∈ lines, '\n' ∉ l ∧ ∀ c ∈ l.head?, isSpace c = true

variable {w : WordClass}

namespace Block

/-- The header line. -/
def header (b : Block w) : Str :=
  "class".toList ++ ([' '] ++ (b.name ++ '(' :: (b.bases ++ "):".toList)))

/-- The body, each of its lines after its newline. -/
def body (b : Block w) : Str := (b.lines.map ('\n' :: ·)).flatten

/-- The whole block, without the newline that ends it. -/
def text (b : Block w) : Str := b.header ++ b.body

theorem body_eq (b : Block w) : ∃ t, b.body = '\n' :: t := by
  obtain ⟨l, ls, hls⟩ := List.exists_cons_of_ne_nil b.lines_ne
  exact ⟨l ++ (ls.map ('\n' :: ·)).flatten, by rw [body, hls]; rfl⟩

end Block

/-- The newline that ends the last line, if it is there. -/
def finalNewline (terminated : Bool) : Str := if terminated then ['\n'] else []

theorem length_finalNewline_le (terminated : Bool) : (finalNewline terminated).length ≤ 1 := by
  cases terminated <;> decide

theorem isSpace_of_mem_finalNewline {terminated : Bool} {a : Char}
    (h : a ∈ finalNewline terminated) : isSpace a = true := by
  cases terminated with
  | false => cases h
  | true =>
    rw [List.mem_singleton.mp h]
    decide

/-- Blocks as the lines of one text. -/
def sourceText (terminated : Bool) : List (Block w) → Str
  | [] => []
  | [b] => b.text ++ finalNewline terminated
  | b :: bs => b.text ++ '\n' :: sourceText terminated bs

/-- A `models.py` of class blocks with distinct names.  A last line without its newline
is not empty. -/
structure Source (w : WordClass) where
  blocks : List (Block w)
  terminated : Bool
  distinct : (blocks.map Block.name).Nodup
  last_ok : terminated = true ∨ ∀ b ∈ blocks.getLast?, b.lines.getLast? ≠ some []

/-- The text of the file. -/
def Source.text (s : Source w) : Str := sourceText s.terminated s.blocks

/-! ### Bodies made of units -/

/-- A sequence of units: a newline, white space, and one character that is none. -/
inductive Units : Str → Prop
  | nil : Units []
  | cons {sp s : Str} {c : Char} (hsp : sp ≠ [] ∧ ∀ a ∈ sp, isSpace a = true)
      (hc : isSpace c = false) (hs : Units s) : Units ('\n' :: (sp ++ c :: s))

/-- At the end of the text, units may be followed by blank lines of at least two
characters in all after their first newline. -/
def UnitsAtEnd (terminated : Bool) (s : Str) : Prop :=
  ∃ u z, s = u ++ z ∧ Units u ∧
    (z = [] ∨ ∃ y, z = '\n' :: y ∧ (∀ a ∈ y, isSpace a = true) ∧
      2 ≤ (y ++ finalNewline terminated).length)

/-- The bodies of all blocks are made of units. -/
def UnitBodies (terminated : Bool) : List (Block w) → Prop
  | [] => True
  | [b] => UnitsAtEnd terminated b.body
  | b :: bs => Units b.body ∧ UnitBodies terminated bs

theorem unit?_cons {sp s : Str} {c : Char} (hsp : sp ≠ [] ∧ ∀ a ∈ sp, isSpace a = true)
    (hc : isSpace c = false) : unit? ('\n' :: (sp ++ c :: s)) = some s := by
  have hdrop : (sp ++ c :: s).dropWhile isSpace = c :: s := by
    rw [List.dropWhile_append_of_pos hsp.2, List.dropWhile_cons_of_neg (by simp [hc])]
  have htake : (sp ++ c :: s).takeWhile isSpace = sp := by
    rw [List.takeWhile_append_of_pos hsp.2, List.takeWhile_cons_of_neg (by simp [hc]),
      List.append_nil]
  simp only [unit?, hdrop, htake, hsp.1, if_false]

theorem unit?_blank {y : Str} (hy : ∀ a ∈ y, isSpace a = true) (hlen : 2 ≤ y.length) :
    unit? ('\n' :: y) = some [] := by
  have hdrop : y.dropWhile isSpace = [] := List.dropWhile_eq_nil_iff.mpr hy
  simp only [unit?, hdrop, hlen, if_true]

/-- The repetition runs over units, and stops where no further one stands. -/
theorem first_units_of_units {u r : Str} (hu : Units u) :
    Regex.first (.star true unitRegex) (u ++ r) = Regex.first (.star true unitRegex) r := by
  induction hu with
  | nil => rfl
  | cons hsp hc _ ih =>
    rw [first_units, List.cons_append, List.append_assoc, List.cons_append, unit?_cons hsp hc]
    exact ih

theorem first_units_of_none {r : Str} (h : unit? r = none) :
    Regex.first (.star true unitRegex) r = some r := by
  rw [first_units, h]

/-- A whole body of units. -/
theorem first_units_plus_of_units {u r : Str} (hu : Units u) (hne : u ≠ []) :
    Regex.first (.plus true unitRegex) (u ++ r) = Regex.first (.star true unitRegex) r := by
  cases hu with
  | nil => exact absurd rfl hne
  | cons hsp hc hu =>
    rw [first_units_plus, List.cons_append, List.append_assoc, List.cons_append, unit?_cons hsp hc]
    exact first_units_of_units hu

/-! ### The match at a header -/

theorem unit?_of_head?_ne {s : Str} (h : s.head? ≠ some '\n') : unit? s = none := by
  unfold unit?
  split
  · simp at h
  · rfl

/-- A closing parenthesis and colon among the bases is not followed by a newline. -/
theorem first_colon_of_bases {b S : Str} (hne : b ≠ []) (hb : '\n' ∉ b) :
    Regex.first (.word "):".toList (.plus true unitRegex)) (b ++ ("):".toList ++ S)) = none := by
  rw [Regex.first_word]
  split
  · next hpre =>
    obtain ⟨t, ht⟩ := hpre
    have hdrop : (b ++ ("):".toList ++ S)).drop 2 = t := by rw [← ht]; rfl
    have hlen : "):".toList.length = 2 := rfl
    rw [hlen, hdrop, first_units_plus, unit?_of_head?_ne, Option.bind_none]
    match b, hne with
    | [x], _ =>
      -- a parenthesis before the one that ends the header
      have h2 : ':' = ')' := (List.cons.inj (List.cons.inj ht).2).1
      cases h2
    | x :: y :: b, _ =>
      have hsplit : t = b ++ ("):".toList ++ S) := (List.cons.inj (List.cons.inj ht).2).2
      rw [hsplit]
      cases b with
      | nil => simp
      | cons z b =>
        rw [List.cons_append, List.head?_cons]
        rintro hz
        cases hz
        simp at hb
  · rfl

theorem isSpace_of_mem_blank : ∀ a ∈ [' '], isSpace a = true := by
  intro a ha
  rw [List.mem_singleton.mp ha]
  decide

/-- **The match at a header** is the header and what the repetition takes of the text
below it. -/
theorem first_classRegex_header (b : Block w) {S r : Str}
    (h : Regex.first (.plus true unitRegex) S = some r) :
    Regex.first (classRegex w) (b.header ++ S) = some r := by
  rw [first_classRegex_eq_some_iff]
  refine ⟨[' '], b.name, b.bases ++ ("):".toList ++ S), ?_, ⟨by simp, isSpace_of_mem_blank⟩,
    b.name_ok, ?_⟩
  · simp [Block.header]
  · rw [basesRegex, Regex.first_lazy_eq_some_iff]
    refine ⟨b.bases, _, rfl, ?_, fun c hne hsuf => ?_⟩
    · rw [Regex.first_word_eq_some_iff]
      exact ⟨S, rfl, h⟩
    · exact first_colon_of_bases hne fun hmem => b.bases_line (hsuf.subset hmem)

theorem unit?_newline_class (t : Str) : unit? ('\n' :: ("class".toList ++ t)) = none := by
  have hspace : isSpace 'c' = false := by decide
  simp [unit?, hspace]

theorem unit?_finalNewline (terminated : Bool) : unit? (finalNewline terminated) = none := by
  cases terminated <;> rfl

theorem Block.body_ne_nil (b : Block w) : b.body ≠ [] := by
  obtain ⟨t, ht⟩ := b.body_eq
  simp [ht]

theorem Block.text_ne_nil (b : Block w) : b.text ≠ [] := by
  simp [Block.text, Block.header]

/-- The text of blocks starts with a keyword. -/
theorem sourceText_cons_eq (terminated : Bool) (b : Block w) (bs : List (Block w)) :
    ∃ t, sourceText terminated (b :: bs) = "class".toList ++ t := by
  cases bs with
  | nil =>
    exact ⟨[' '] ++ (b.name ++ '(' :: (b.bases ++ "):".toList)) ++ b.body ++
      finalNewline terminated,
      by simp [sourceText, Block.text, Block.header]⟩
  | cons b' bs =>
    exact ⟨[' '] ++ (b.name ++ '(' :: (b.bases ++ "):".toList)) ++ b.body ++
      '\n' :: sourceText terminated (b' :: bs), by simp [sourceText, Block.text, Block.header]⟩

/-- Below a header that another block follows, a body of units is matched as it is. -/
theorem first_classRegex_text {b : Block w} (h : Units b.body) (t : Str) :
    Regex.first (classRegex w) (b.text ++ '\n' :: ("class".toList ++ t)) =
      some ('\n' :: ("class".toList ++ t)) := by
  rw [Block.text, List.append_assoc]
  refine first_classRegex_header b ?_
  rw [first_units_plus_of_units h b.body_ne_nil, first_units_of_none (unit?_newline_class t)]

/-- Below the last header, a body of units is matched with the blank lines after it. -/
theorem first_classRegex_text_last {terminated : Bool} {b : Block w}
    (h : UnitsAtEnd terminated b.body) :
    ∃ r, Regex.first (classRegex w) (b.text ++ finalNewline terminated) = some r ∧
      r.length ≤ (finalNewline terminated).length ∧ scan (Regex.first (classRegex w)) r = [] := by
  have hscan : ∀ t, scan (Regex.first (classRegex w)) (finalNewline t) = [] := by
    intro t
    cases t <;> rfl
  obtain ⟨u, z, hbody, hu, hz⟩ := h
  rw [Block.text, List.append_assoc, hbody]
  rcases hz with rfl | ⟨y, rfl, hy, hlen⟩
  · refine ⟨finalNewline terminated, first_classRegex_header b ?_, le_rfl, hscan terminated⟩
    rw [List.append_nil] at hbody ⊢
    rw [first_units_plus_of_units hu (hbody ▸ b.body_ne_nil),
      first_units_of_none (unit?_finalNewline terminated)]
  · have hspace : ∀ a ∈ y ++ finalNewline terminated, isSpace a = true := by
      intro a ha
      rcases List.mem_append.mp ha with ha | ha
      · exact hy a ha
      · exact isSpace_of_mem_finalNewline ha
    have hunit := unit?_blank hspace hlen
    have hnil : Regex.first (.star true unitRegex) [] = some [] := first_units_of_none rfl
    refine ⟨[], first_classRegex_header b ?_, Nat.zero_le _, rfl⟩
    rw [List.append_assoc, List.cons_append]
    cases hu with
    | nil => rw [List.nil_append, first_units_plus, hunit]; exact hnil
    | cons hsp hc hu =>
      rw [first_units_plus_of_units (.cons hsp hc hu) (by simp), first_units, hunit]
      exact hnil

/-! ### Finding the blocks -/

/-- A newline is not the start of a match. -/
theorem first_classRegex_newline (w : WordClass) (t : Str) :
    Regex.first (classRegex w) ('\n' :: t) = none := by
  cases h : Regex.first (classRegex w) ('\n' :: t) with
  | none => rfl
  | some r =>
    obtain ⟨sp, name, rest, ht, -⟩ := (first_classRegex_eq_some_iff w).mp h
    have hc : '\n' = 'c' := (List.cons.inj ht).1
    cases hc

/-- **The matches in a source of units are its blocks**, the last one perhaps with the
newline after it. -/
theorem findall_of_unitBodies {terminated : Bool} {bs : List (Block w)}
    (h : UnitBodies terminated bs) :
    List.Forall₂ (fun (b : Block w) (d : Str) => ∃ x, d = b.text ++ x) bs
      ((classRegex w).findall (sourceText terminated bs)) := by
  induction bs with
  | nil => exact .nil
  | cons b bs ih =>
    cases bs with
    | nil =>
      have hlast : UnitsAtEnd terminated b.body := h
      obtain ⟨r, hfirst, hlen, hscan⟩ := first_classRegex_text_last hlast
      have hpos := List.length_pos_iff.mpr b.text_ne_nil
      have hlt : r.length < (b.text ++ finalNewline terminated).length := by
        rw [List.length_append]
        omega
      obtain ⟨x, hx⟩ : ∃ x, (b.text ++ finalNewline terminated).take
          ((b.text ++ finalNewline terminated).length - r.length) = b.text ++ x := by
        rw [List.length_append, List.take_append]
        have hle : b.text.length ≤ b.text.length + (finalNewline terminated).length - r.length := by
          omega
        rw [List.take_of_length_le hle]
        exact ⟨_, rfl⟩
      rw [sourceText, Regex.findall, scan_of_some hfirst hlt, hscan, List.map_cons, List.map_nil]
      exact .cons ⟨x, hx⟩ .nil
    | cons b' bs =>
      obtain ⟨hb, hrest⟩ := h
      obtain ⟨t, ht⟩ := sourceText_cons_eq terminated b' bs
      have hfirst := first_classRegex_text hb t
      have hpos := List.length_pos_iff.mpr b.text_ne_nil
      have hlt : ('\n' :: ("class".toList ++ t)).length <
          (b.text ++ '\n' :: ("class".toList ++ t)).length := by
        rw [List.length_append]
        omega
      have htake : (b.text ++ '\n' :: ("class".toList ++ t)).take
          ((b.text ++ '\n' :: ("class".toList ++ t)).length -
            ('\n' :: ("class".toList ++ t)).length) = b.text ++ [] := by
        rw [List.length_append, Nat.add_sub_cancel, List.take_left, List.append_nil]
      have ih := ih hrest
      rw [ht, Regex.findall] at ih
      rw [sourceText, ht, Regex.findall, scan_of_some hfirst hlt, List.map_cons,
        scan_cons_of_none (first_classRegex_newline w _)]
      · exact .cons ⟨[], htake⟩ ih
      · simp

/-! ### Writing them -/

/-- There is one file per class, and it holds the whole block of the class. -/
def Saved (lower : Str → Str) (dir : Dir) (bs : List (Block w)) : Prop :=
  (bs.map fun b => outputFile lower b.name).Nodup ∧
    ∀ b ∈ bs, ∃ content, dir.get? (outputFile lower b.name) = some content ∧ b.text <:+: content

/-- Files are distinct when the names are, in lower case. -/
theorem nodup_outputFile_iff (lower : Str → Str) (bs : List (Block w)) :
    (bs.map fun b => outputFile lower b.name).Nodup ↔ (bs.map fun b => lower b.name).Nodup := by
  have hinj : Function.Injective fun l : Str => l ++ ".py".toList := fun _ _ h =>
    List.append_cancel_right h
  have hmap : (bs.map fun b => outputFile lower b.name) =
      (bs.map fun b => lower b.name).map fun l => l ++ ".py".toList := by
    rw [List.map_map]
    rfl
  rw [hmap, List.nodup_map_iff hinj]

theorem Block.nameOf_text_append (b : Block w) (x : Str) : nameOf w (b.text ++ x) = b.name := by
  have htext : b.text ++ x =
      "class".toList ++ ([' '] ++ (b.name ++ '(' :: (b.bases ++ "):".toList ++ b.body ++ x))) := by
    simp [Block.text, Block.header]
  rw [htext, nameOf_header ⟨by simp, isSpace_of_mem_blank⟩ b.name_ok]

theorem splitModelsFile_eq (lower : Str → Str) {inputFile : Str}
    (hinput : "models.py".toList <:+: inputFile) (text : Str) (outputDir : Option Dir) :
    splitModelsFile w lower inputFile (some text) outputDir false =
      .ok (some (writeModelFiles lower (datamodelOf w text) outputDir false)) := by
  unfold splitModelsFile
  dsimp only
  split
  · rw [getDatamodelFromModelsContent_eq]
    rfl
  · contradiction

/-- Matches that are the blocks, in order, are found again under their names. -/
theorem exists_match_of_mem {bs : List (Block w)} {ds : List Str}
    (h : List.Forall₂ (fun (b : Block w) (d : Str) => ∃ x, d = b.text ++ x) bs ds) {d : Str}
    (hd : d ∈ ds) : ∃ b ∈ bs, ∃ x, d = b.text ++ x := by
  induction h with
  | nil => cases hd
  | cons hbd _ ih =>
    rcases List.mem_cons.mp hd with rfl | hd
    · exact ⟨_, List.mem_cons_self, hbd⟩
    · obtain ⟨b, hb, hx⟩ := ih hd
      exact ⟨b, List.mem_cons_of_mem _ hb, hx⟩

theorem exists_match_of_block {bs : List (Block w)} {ds : List Str}
    (h : List.Forall₂ (fun (b : Block w) (d : Str) => ∃ x, d = b.text ++ x) bs ds) {b : Block w}
    (hb : b ∈ bs) : ∃ d ∈ ds, ∃ x, d = b.text ++ x := by
  induction h with
  | nil => cases hb
  | cons hbd _ ih =>
    rcases List.mem_cons.mp hb with rfl | hb
    · exact ⟨_, List.mem_cons_self, hbd⟩
    · obtain ⟨d, hd, hx⟩ := ih hb
      exact ⟨d, List.mem_cons_of_mem _ hd, hx⟩

/-- A class that is found is in the data model. -/
theorem exists_get?_datamodelOf {text d : Str} (hd : d ∈ (classRegex w).findall text) :
    ∃ d', (datamodelOf w text).get? (nameOf w d) = some d' := by
  rw [datamodelOf, Dict.get?_foldl_set, Dict.get?_empty, Option.or_none, Option.map_id',
    ← Option.isSome_iff_exists, List.getLast?_isSome]
  exact List.ne_nil_of_mem (List.mem_filter.mpr ⟨hd, by simp⟩)

theorem Source.eq_of_name_eq (s : Source w) {b b' : Block w} (hb : b ∈ s.blocks)
    (hb' : b' ∈ s.blocks) (h : b.name = b'.name) : b = b' :=
  List.inj_on_of_nodup_map s.distinct hb hb' h

/-- **Blocks made of units survive**, if no two names agree in lower case. -/
theorem saved_of_unitBodies (lower : Str → Str) (s : Source w)
    (hunits : UnitBodies s.terminated s.blocks)
    (hlower : (s.blocks.map fun b => lower b.name).Nodup) (outputDir : Option Dir) :
    Saved lower (writeModelFiles lower (datamodelOf w s.text) outputDir false) s.blocks := by
  have hmatch := findall_of_unitBodies hunits
  -- every entry of the data model is a block under its own name
  have hentry : ∀ e ∈ (datamodelOf w s.text).entries,
      ∃ b ∈ s.blocks, e.1 = b.name ∧ b.text <:+: e.2 := by
    rintro ⟨name, d⟩ he
    obtain ⟨hd, hname⟩ := mem_findall_of_get? ((Dict.mem_entries_iff _ _ _).mp he)
    obtain ⟨b, hb, x, rfl⟩ := exists_match_of_mem hmatch hd
    exact ⟨b, hb, hname.symm.trans (b.nameOf_text_append x), [], x, rfl⟩
  refine ⟨(nodup_outputFile_iff lower s.blocks).mpr hlower, ?_⟩
  intro b hb
  have hfound : ∃ e ∈ (datamodelOf w s.text).entries,
      outputFile lower e.1 = outputFile lower b.name := by
    obtain ⟨d, hd, x, rfl⟩ := exists_match_of_block hmatch hb
    obtain ⟨d', hd'⟩ := exists_get?_datamodelOf hd
    rw [b.nameOf_text_append] at hd'
    exact ⟨(b.name, d'), (Dict.mem_entries_iff _ _ _).mpr hd', rfl⟩
  obtain ⟨e, he⟩ : ∃ e, ((datamodelOf w s.text).entries.filter fun e =>
      outputFile lower e.1 = outputFile lower b.name).getLast? = some e := by
    obtain ⟨e, he, hfile⟩ := hfound
    rw [← Option.isSome_iff_exists, List.getLast?_isSome]
    exact List.ne_nil_of_mem (List.mem_filter.mpr ⟨he, decide_eq_true hfile⟩)
  obtain ⟨hmem, hfile⟩ := List.mem_filter.mp (List.mem_of_getLast? he)
  refine ⟨e.2, by rw [get?_writeModelFiles, he]; rfl, ?_⟩
  obtain ⟨b', hb', hname, htext⟩ := hentry e hmem
  -- the file is that of one class only
  have hsame : lower b'.name = lower b.name := by
    rw [← hname]
    exact List.append_cancel_right (of_decide_eq_true hfile)
  rwa [List.inj_on_of_nodup_map hlower hb' hb hsame] at htext

end SplitModels
end Dfuser
