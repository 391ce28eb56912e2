import Dfuser.Lib.Joined
import Dfuser.Ini.Text

/-!
# Writing a configuration and reading it back

The writer puts every section, option and value on the lines of a file without looking at
them, and a value with newlines on several lines, indented by a tab.  The reader makes the
same configuration of that text when no name looks like a comment, a header or a delimiter,
and no line of a value would be skipped or stripped.

The reader is followed line by line: `Tracks ρ f` says that it would leave `f` if the file
ended here, and every group of lines that is written has its lemma.

## Main definitions

* `IsName`, `IsItem`, `Writable` — what can be read back.
* `sectionLines` — the lines of a section.
* `Reader.Tracks` — what the reader has made of the lines so far.

## Main results

* `write_eq` — the text that is written, as lines.
* `Tracks.readLines_sections` — what the reader makes of the lines of sections.
* `parse_write` — **a writable configuration comes back**, in its order.
-/

namespace Dfuser
namespace Ini

open History (isSpace)
open Columns (strip)
open Dfuser.Joined (spell)

variable {x : OptionXform}

/-! ### What can be read back -/

/-- A name of an option that is read back. -/
structure IsName (k : Str) : Prop where
  ne_nil : k ≠ []
  stripped : strip isSpace k = k
  noComment : isComment k = false
  noDelimiter : ∀ c ∈ k, isDelimiter c = false
  noNewline : '\n' ∉ k ∧ '\r' ∉ k

/-- The line with the name of an option. -/
def optionLine (k l : Str) : Str := k ++ " = ".toList ++ l

/-- A name and a value, each line of which is read back. -/
structure IsItem (k v : Str) : Prop where
  name : IsName k
  noReturn : '\r' ∉ v
  stripped : ∀ l ∈ v.splitOn '\n', strip isSpace l = l
  noComment : ∀ l ∈ (v.splitOn '\n').tail, isComment l = false
  noHeader : header? (strip isSpace (optionLine k ((v.splitOn '\n').headD []))) = none

/-- The names and values of the configuration are read back. -/
structure Writable (c : Config x) : Prop where
  sections : ∀ s ∈ c.sections.keys, '\n' ∉ s ∧ '\r' ∉ s
  items : ∀ s k v, c.own s k = some v → IsItem k v ∧ v.rdropWhile isSpace = v

/-! ### The lines that are written -/

/-- The lines of an option; those its value goes on in are indented. -/
def itemLines (k v : Str) : List Str :=
  optionLine k ((v.splitOn '\n').headD []) :: (v.splitOn '\n').tail.map ('\t' :: ·)

/-- The lines of a section. -/
def sectionLines (s : Str) (items : List (Str × Str)) : List Str :=
  ('[' :: (s ++ [']'])) :: items.flatMap (fun e => itemLines e.1 e.2) ++ [[]]

theorem unlines_append (l l' : List Str) : unlines (l ++ l') = unlines l ++ unlines l' :=
  List.flatMap_append

theorem unlines_cons (l : Str) (ls : List Str) : unlines (l :: ls) = l ++ '\n' :: unlines ls := by
  rw [unlines, List.flatMap_cons, List.append_assoc]
  rfl

/-- A value from its lines. -/
theorem spell_splitOn (v : Str) :
    (v.splitOn '\n').headD [] ++ spell '\n' (v.splitOn '\n').tail = v := by
  have hjoined : ['\n'].intercalate (v.splitOn '\n') = v := List.intercalate_splitOn '\n'
  cases hlines : v.splitOn '\n' with
  | nil => exact absurd hlines (List.splitOn_ne_nil _ _)
  | cons l ls =>
    rw [hlines, Joined.intercalate_cons_eq] at hjoined
    exact hjoined

theorem replaceAll_newline (l : Str) (ls : List Str) (hl : '\n' ∉ l) (hls : ∀ l ∈ ls, '\n' ∉ l) :
    replaceAll "\n".toList "\n\t".toList (l ++ spell '\n' ls) =
      l ++ spell '\n' (ls.map ('\t' :: ·)) := by
  have hp : "\n".toList ≠ [] := by decide
  have habsent : ∀ l : Str, '\n' ∉ l → ¬ "\n".toList <:+: l := by
    intro l hl hin
    exact hl (hin.subset (by decide))
  induction ls generalizing l with
  | nil =>
    rw [spell, List.flatMap_nil, List.append_nil, replaceAll_of_absent hp (habsent l hl)]
    simp
  | cons l' ls ih =>
    have hrest := ih l' (hls l' List.mem_cons_self) fun a ha => hls a (List.mem_cons_of_mem _ ha)
    rw [Joined.spell_cons, replaceAll_append_cons hp (by decide),
      replaceAll_of_absent hp (habsent l hl), ← List.singleton_append (x := '\n')]
    have hcut := replaceAll_append (r := "\n\t".toList) hp (l' ++ spell '\n' ls)
    have hsep : "\n".toList = ['\n'] := rfl
    rw [hsep] at hcut hrest ⊢
    rw [hcut, hrest]
    simp

theorem headD_splitOn_mem (v : Str) : (v.splitOn '\n').headD [] ∈ v.splitOn '\n' := by
  cases hlines : v.splitOn '\n' with
  | nil => exact absurd hlines (List.splitOn_ne_nil _ _)
  | cons l ls => exact List.mem_cons_self

theorem newline_notMem_splitOn {l v : Str} (h : l ∈ v.splitOn '\n') : '\n' ∉ l :=
  fun hmem => (mem_of_mem_splitOn h hmem).2 rfl

/-- The lines of an option, as one text. -/
theorem unlines_itemLines (k v : Str) :
    unlines (itemLines k v) =
      k ++ " = ".toList ++ replaceAll "\n".toList "\n\t".toList v ++ "\n".toList := by
  have hvalue := replaceAll_newline ((v.splitOn '\n').headD []) (v.splitOn '\n').tail
    (newline_notMem_splitOn (headD_splitOn_mem v))
    (fun l hl => newline_notMem_splitOn (List.mem_of_mem_tail hl))
  rw [spell_splitOn] at hvalue
  -- a newline before each line, or behind each one
  have hshift : ∀ ls : List Str, '\n' :: unlines ls = spell '\n' ls ++ "\n".toList := by
    intro ls
    induction ls with
    | nil => rfl
    | cons l ls ih => rw [unlines_cons, Joined.spell_cons, ih]; simp
  rw [hvalue, itemLines, unlines_cons, hshift, optionLine]
  simp only [List.append_assoc]

theorem unlines_flatMap (f : Str × Str → List Str) (l : List (Str × Str)) :
    unlines (l.flatMap f) = l.flatMap fun e => unlines (f e) := by
  induction l with
  | nil => rfl
  | cons e l ih => rw [List.flatMap_cons, List.flatMap_cons, unlines_append, ih]

theorem writeSection_eq (s : Str) (items : List (Str × Str)) :
    writeSection s items = unlines (sectionLines s items) := by
  rw [sectionLines, unlines_append, unlines_cons, unlines_flatMap, writeSection]
  simp only [unlines_itemLines]
  simp [unlines]

/-- The options of a section with their values, in their order. -/
def items (c : Config x) (s : Str) : List (Str × Str) :=
  (c.ownKeys s).map fun k => (k, (c.own s k).getD [])

/-- The sections that are written. -/
def written (c : Config x) : List Str :=
  (if c.ownKeys defaultSection = [] then [] else [defaultSection]) ++ c.sections.keys

theorem entries_eq_map (d : Dict Str Str) :
    d.entries = d.keys.map fun k => (k, (d.get? k).getD []) := by
  rw [d.entries_eq, ← List.filterMap_eq_map]
  apply List.filterMap_congr
  intro k hk
  obtain ⟨v, hv⟩ := (Dict.mem_keys_iff d k).mp hk
  rw [Function.comp_apply, hv]
  rfl

theorem write_eq (c : Config x) :
    write c = unlines ((written c).flatMap fun s => sectionLines s (items c s)) := by
  have hdefault : c.defaults.entries = items c defaultSection := entries_eq_map c.defaults
  have hsection : ∀ e ∈ c.sections.entries, e.2.entries = items c e.1 := by
    intro e he
    have hget : c.sections.get? e.1 = some e.2 := (Dict.mem_entries_iff _ _ _).mp he
    have hne : e.1 ≠ defaultSection :=
      (c.names e.1 ((Dict.mem_keys_iff _ _).mpr ⟨e.2, hget⟩)).1
    simp only [items, Config.ownKeys, Config.own, if_neg hne, hget, Option.map_some,
      Option.getD_some, Option.bind_some]
    exact entries_eq_map e.2
  have hnil : c.defaults.entries = [] ↔ c.ownKeys defaultSection = [] := by
    rw [hdefault, items, List.map_eq_nil_iff]
  have hsections : c.sections.entries.flatMap (fun e => writeSection e.1 e.2.entries) =
      unlines (c.sections.keys.flatMap fun s => sectionLines s (items c s)) := by
    rw [unlines, List.flatMap_assoc, Dict.keys, List.flatMap_map]
    apply List.flatMap_congr
    intro e he
    rw [hsection e he, writeSection_eq]
    rfl
  rw [write, written, List.flatMap_append, unlines_append, hsections, hdefault]
  congr 1
  by_cases h : c.ownKeys defaultSection = []
  · rw [if_pos h, if_pos (by rw [items, h]; rfl)]
    rfl
  · rw [if_neg h, if_neg (by rw [items, List.map_eq_nil_iff]; exact h), List.flatMap_singleton,
      writeSection_eq]

theorem mem_items {c : Config x} {s k v : Str} (h : (k, v) ∈ items c s) : c.own s k = some v := by
  obtain ⟨k', hk', heq⟩ := List.mem_map.mp h
  cases heq
  obtain ⟨w, hw⟩ := (Config.mem_ownKeys c s k).mp hk'
  rw [hw]
  rfl

theorem mem_written {c : Config x} {s : Str} (h : s ∈ written c) : c.HasSection s := by
  rcases List.mem_append.mp h with h | h
  · split at h
    · cases h
    · exact .inl (List.mem_singleton.mp h)
  · exact .inr h

/-- Nothing that ends a line is in a line that is written. -/
theorem notMem_sectionLines {c : Config x} (h : Writable c) {s l : Str} (hs : c.HasSection s)
    (hl : l ∈ sectionLines s (items c s)) : '\n' ∉ l ∧ '\r' ∉ l := by
  have hname : '\n' ∉ s ∧ '\r' ∉ s := by
    rcases hs with rfl | hs
    · decide
    · exact h.sections s hs
  rw [sectionLines, List.mem_append, List.mem_cons, List.mem_flatMap, List.mem_singleton] at hl
  rcases hl with (rfl | ⟨⟨k, v⟩, he, hl⟩) | rfl
  · simp [hname.1, hname.2]
  · obtain ⟨hitem, -⟩ := h.items s k v (mem_items he)
    have hv : ∀ l ∈ v.splitOn '\n', '\n' ∉ l ∧ '\r' ∉ l := fun l hl =>
      ⟨newline_notMem_splitOn hl, fun hr => hitem.noReturn (mem_of_mem_splitOn hl hr).1⟩
    rcases List.mem_cons.mp hl with rfl | hl
    · obtain ⟨hnew, hret⟩ := hv _ (headD_splitOn_mem v)
      dsimp only
      generalize (v.splitOn '\n').headD [] = l₀ at hnew hret
      simp [optionLine, hitem.name.noNewline.1, hitem.name.noNewline.2, hnew, hret]
    · obtain ⟨l', hl', rfl⟩ := List.mem_map.mp hl
      obtain ⟨hnew, hret⟩ := hv l' (List.mem_of_mem_tail hl')
      simp [hnew, hret]
  · simp

/-- What is written for a writable configuration is read line by line. -/
theorem textLines_write {c : Config x} (h : Writable c) :
    textLines (universalNewlines (write c)) =
      (written c).flatMap fun s => sectionLines s (items c s) := by
  have hline : ∀ l ∈ (written c).flatMap (fun s => sectionLines s (items c s)),
      '\n' ∉ l ∧ '\r' ∉ l := by
    intro l hl
    obtain ⟨s, hs, hl⟩ := List.mem_flatMap.mp hl
    exact notMem_sectionLines h (mem_written hs) hl
  have hreturn : '\r' ∉ write c := by
    rw [write_eq, unlines, List.mem_flatMap]
    rintro ⟨l, hl, hmem⟩
    rcases List.mem_append.mp hmem with hmem | hmem
    · exact (hline l hl).2 hmem
    · exact absurd hmem (by decide)
  rw [universalNewlines_of_notMem hreturn, write_eq, textLines_unlines fun l hl => (hline l hl).1]

/-! ### Reading the line of an option -/

theorem head?_of_ne_nil {k : Str} (hne : k ≠ []) (s : Str) : (k ++ s).head? = k.head? := by
  cases k with
  | nil => exact absurd rfl hne
  | cons a k => rfl

/-- The line of an option, stripped: the space behind the delimiter stays only when there is a
value. -/
theorem strip_optionLine {k l : Str} (hne : k ≠ []) (hk : strip isSpace k = k)
    (hl : strip isSpace l = l) :
    ∃ rest, strip isSpace (optionLine k l) = k ++ ' ' :: '=' :: rest ∧ strip isSpace rest = l ∧
      ∀ c ∈ rest, c = ' ' ∨ c ∈ l := by
  have hhead := (Columns.strip_eq_self_iff.mp hk).1
  by_cases hnil : l = []
  · subst hnil
    refine ⟨[], ?_, rfl, fun c hc => (by cases hc)⟩
    have hline : optionLine k [] = (k ++ [' ', '=']) ++ [' '] := by
      rw [optionLine, List.append_nil, List.append_assoc]
      rfl
    have hdrop : (optionLine k []).dropWhile isSpace = optionLine k [] := by
      rw [Columns.dropWhile_eq_self_iff, optionLine, List.append_assoc, head?_of_ne_nil hne]
      exact hhead
    rw [strip, hdrop, hline, List.rdropWhile_concat_pos _ _ _ (by decide)]
    have hcut : k ++ [' ', '='] = (k ++ [' ']) ++ ['='] := by rw [List.append_assoc]; rfl
    rw [hcut, List.rdropWhile_concat_neg _ _ _ (by decide), ← hcut]
  · refine ⟨' ' :: l, ?_, ?_, fun c hc => List.mem_cons.mp hc⟩
    · have hline : optionLine k l = k ++ ' ' :: '=' :: ' ' :: l := by
        rw [optionLine, List.append_assoc]
        rfl
      rw [← hline, Columns.strip_eq_self_iff]
      constructor
      · rw [hline, head?_of_ne_nil hne]
        exact hhead
      · rw [optionLine, List.getLast?_append_of_ne_nil _ hnil]
        exact (Columns.strip_eq_self_iff.mp hl).2
    · rw [Columns.strip_cons_of_pos (by decide), hl]

theorem option?_optionLine {k rest : Str} (hk : IsName k) :
    option? (k ++ ' ' :: '=' :: rest) = some (k, strip isSpace rest) := by
  have hplain : ∀ c ∈ k ++ [' '], (!isDelimiter c) = true := by
    intro c hc
    rcases List.mem_append.mp hc with hc | hc
    · rw [hk.noDelimiter c hc]
      rfl
    · rw [List.mem_singleton.mp hc]
      decide
  have hcut : k ++ ' ' :: '=' :: rest = (k ++ [' ']) ++ '=' :: rest := by
    rw [List.append_assoc]
    rfl
  have hdelimiter : (!isDelimiter '=') = false := by decide
  have htrim : (k ++ [' ']).rdropWhile isSpace = k := by
    rw [List.rdropWhile_concat_pos _ _ _ (by decide), Columns.rdropWhile_eq_self_iff]
    exact (Columns.strip_eq_self_iff.mp hk.stripped).2
  rw [option?, hcut, List.dropWhile_append_of_pos hplain, List.takeWhile_append_of_pos hplain,
    List.dropWhile_cons, List.takeWhile_cons, hdelimiter]
  simp only [Bool.false_eq_true, if_false, List.append_nil, htrim]

theorem isComment_append {k : Str} (hne : k ≠ []) (s : Str) :
    isComment (k ++ s) = isComment k := by
  rw [isComment, isComment, head?_of_ne_nil hne]

namespace Reader

variable {ρ : Reader x} {s k v : Str}

/-- A line that is not indented and no comment. -/
theorem readLine_flush {line : Str} (hs : ρ.cursect = some s)
    (hcomment : isComment (strip isSpace line) = false) (hne : strip isSpace line ≠ [])
    (hflush : line.takeWhile isSpace = []) (lineno : ℕ) :
    ρ.readLine lineno line =
      match header? (strip isSpace line) with
      | some sectname => (ρ.setIndent 0).openSection lineno sectname
      | none => (ρ.setIndent 0).addOption lineno line s (strip isSpace line) := by
  unfold readLine
  dsimp only
  rw [hcomment, if_neg Bool.false_ne_true, if_neg hne, hs, hflush]
  dsimp only [List.length_nil]
  refine (if_neg fun h => Nat.not_lt_zero _ h.2).trans ?_
  cases header? (strip isSpace line) <;> rfl

/-- The value of the option of a section, as one step of the reader leaves it. -/
def stored (ρ : Reader x) (s k v : Str) : Reader x :=
  { ρ with config := ρ.config.put s k v, optname := k, optionsAdded := (s, k) :: ρ.optionsAdded,
           indentLevel := 0 }

theorem readLine_optionLine {l : Str} (hs : ρ.cursect = some s) (hk : IsName k)
    (hlow : x.lower k = k) (hl : strip isSpace l = l)
    (hheader : header? (strip isSpace (optionLine k l)) = none)
    (hnew : (s, k) ∉ ρ.optionsAdded) (lineno : ℕ) :
    ρ.readLine lineno (optionLine k l) = .ok (ρ.stored s k l) := by
  obtain ⟨rest, hstrip, hrest, -⟩ := strip_optionLine hk.ne_nil hk.stripped hl
  have hflush : (optionLine k l).takeWhile isSpace = [] := by
    obtain ⟨a, k', rfl⟩ := List.exists_cons_of_ne_nil hk.ne_nil
    have ha : isSpace a = false := (Columns.strip_eq_self_iff.mp hk.stripped).1 a rfl
    rw [optionLine, List.append_assoc, List.cons_append, List.takeWhile_cons_of_neg (by simp [ha])]
  have hcomment : isComment (strip isSpace (optionLine k l)) = false := by
    rw [hstrip, isComment_append hk.ne_nil]
    exact hk.noComment
  have hne : strip isSpace (optionLine k l) ≠ [] := by
    rw [hstrip]
    simp
  have hindent : (ρ.setIndent 0).optionsAdded = ρ.optionsAdded := rfl
  rw [readLine_flush hs hcomment hne hflush, hheader]
  dsimp only
  rw [addOption, hstrip, option?_optionLine hk, hrest]
  dsimp only
  rw [hlow, hindent, if_neg hnew, if_neg hk.ne_nil]
  rfl

theorem append_stored (hsec : ρ.config.HasSection s) (hlow : x.lower k = k) (v l : Str) :
    (ρ.stored s k v).append s l = ρ.stored s k (v ++ '\n' :: l) := by
  have hown : (ρ.config.put s k v).own s k = some v := by
    rw [Config.own_put hsec, hlow, if_pos ⟨rfl, rfl⟩]
  simp only [append, stored, hown, Option.getD_some, Config.put_put hsec]

/-- A line that is indented goes on with the value. -/
theorem readLine_indented {l : Str} (hs : ρ.cursect = some s) (hsec : ρ.config.HasSection s)
    (hne : k ≠ []) (hlow : x.lower k = k) (hl : strip isSpace l = l)
    (hcomment : isComment l = false) (v : Str) (lineno : ℕ) :
    (ρ.stored s k v).readLine lineno ('\t' :: l) = .ok (ρ.stored s k (v ++ '\n' :: l)) := by
  have hstrip : strip isSpace ('\t' :: l) = l := by
    rw [Columns.strip_cons_of_pos (by decide), hl]
  have hcursect : (ρ.stored s k v).cursect = some s := hs
  have hoptname : (ρ.stored s k v).optname = k := rfl
  have hlevel : (ρ.stored s k v).indentLevel = 0 := rfl
  unfold readLine
  dsimp only
  rw [hstrip, hcomment, if_neg Bool.false_ne_true, hcursect, hoptname, hlevel]
  by_cases hnil : l = []
  · subst hnil
    rw [if_pos rfl]
    dsimp only
    rw [if_neg hne, append_stored hsec hlow]
  · rw [if_neg hnil]
    dsimp only
    have hdeep : 0 < (('\t' :: l).takeWhile isSpace).length := by
      rw [List.takeWhile_cons_of_pos (by decide), List.length_cons]
      omega
    rw [if_pos ⟨hne, hdeep⟩, append_stored hsec hlow]

theorem readLines_indented (hs : ρ.cursect = some s) (hsec : ρ.config.HasSection s) (hne : k ≠ [])
    (hlow : x.lower k = k) {ls : List Str}
    (hls : ∀ l ∈ ls, strip isSpace l = l ∧ isComment l = false) (v : Str) (lineno : ℕ) :
    (ρ.stored s k v).readLines lineno (ls.map ('\t' :: ·)) =
      .ok (ρ.stored s k (v ++ spell '\n' ls)) := by
  induction ls generalizing v lineno with
  | nil =>
    rw [Joined.spell_nil, List.append_nil]
    rfl
  | cons l ls ih =>
    obtain ⟨hl, hcomment⟩ := hls l List.mem_cons_self
    rw [List.map_cons, readLines, readLine_indented hs hsec hne hlow hl hcomment, Except.bind,
      ih (fun a ha => hls a (List.mem_cons_of_mem _ ha)), Joined.spell_cons, List.append_assoc]
    rfl

theorem readLines_append (ρ : Reader x) (lineno : ℕ) (ls ls' : List Str) :
    ρ.readLines lineno (ls ++ ls') =
      (ρ.readLines lineno ls).bind fun ρ => ρ.readLines (lineno + ls.length) ls' := by
  induction ls generalizing ρ lineno with
  | nil => rfl
  | cons l ls ih =>
    rw [List.cons_append, readLines, readLines]
    cases ρ.readLine lineno l with
    | error e => rfl
    | ok ρ' =>
      have hno : lineno + 1 + ls.length = lineno + (l :: ls).length := by
        rw [List.length_cons]
        omega
      rw [← hno]
      exact ih ρ' (lineno + 1)

/-- **Reading what is written for an option** stores its value. -/
theorem readLines_itemLines (hs : ρ.cursect = some s) (hsec : ρ.config.HasSection s)
    (hitem : IsItem k v) (hlow : x.lower k = k) (hnew : (s, k) ∉ ρ.optionsAdded) (lineno : ℕ) :
    ρ.readLines lineno (itemLines k v) = .ok (ρ.stored s k v) := by
  have hfirst := readLine_optionLine hs hitem.name hlow
    (hitem.stripped _ (headD_splitOn_mem v)) hitem.noHeader hnew lineno
  have hrest := readLines_indented hs hsec hitem.name.ne_nil hlow
    (fun l hl => ⟨hitem.stripped l (List.mem_of_mem_tail hl), hitem.noComment l hl⟩)
    ((v.splitOn '\n').headD []) (lineno + 1)
  rw [spell_splitOn] at hrest
  rw [itemLines, readLines, hfirst]
  exact hrest

/-- The reader is through with `f`: what it would leave now. -/
structure Tracks (ρ : Reader x) (f : Config x) : Prop where
  errors : ρ.errors = []
  joined : ρ.joined = f
  fits : ρ.Fits
  /-- Every option comes from this file. -/
  added : ∀ s k v, ρ.config.own s k = some v → (s, k) ∈ ρ.optionsAdded

variable {f : Config x}

theorem tracks_start : Tracks (start (Config.empty : Config x)) Config.empty where
  errors := rfl
  joined := rfl
  fits := fits_start _
  added := fun s k v h => by
    rw [start, Config.own_empty] at h
    cases h

theorem Tracks.keys (h : Tracks ρ f) :
    f.sections.keys = ρ.config.sections.keys ∧ ∀ s, f.ownKeys s = ρ.config.ownKeys s := by
  rw [← h.joined]
  exact keys_foldl_trimOption ρ.optionsAdded ρ.config

theorem Tracks.own (h : Tracks ρ f) (s k : Str) :
    f.own s k = (ρ.config.own s k).map (·.rdropWhile isSpace) := by
  rw [← h.joined, own_joined]
  split
  · rfl
  · next hno =>
    cases hv : ρ.config.own s k with
    | none => rfl
    | some v => exact absurd (h.added s k v hv) hno

theorem Tracks.hasSection (h : Tracks ρ f) : f.HasSection s ↔ ρ.config.HasSection s := by
  rw [Config.HasSection, Config.HasSection, h.keys.1]

/-- The variables are about `f`, when the names and values are. -/
theorem tracks_of_own (hfits : ρ.Fits) (herrors : ρ.errors = [])
    (hadded : ∀ s k v, ρ.config.own s k = some v → (s, k) ∈ ρ.optionsAdded)
    (hsec : ρ.config.sections.keys = f.sections.keys)
    (hkeys : ∀ s, ρ.config.ownKeys s = f.ownKeys s)
    (hown : ∀ s k, (ρ.config.own s k).map (·.rdropWhile isSpace) = f.own s k) : Tracks ρ f := by
  obtain ⟨hsec', hkeys'⟩ := keys_foldl_trimOption ρ.optionsAdded ρ.config
  refine ⟨herrors, Config.eq_of_own (hsec'.trans hsec) (fun s => (hkeys' s).trans (hkeys s))
    fun s k => ?_, hfits, hadded⟩
  rw [own_joined, ← hown]
  split
  · rfl
  · next hno =>
    cases hv : ρ.config.own s k with
    | none => rfl
    | some v => exact absurd (hadded s k v hv) hno

/-- The header of a section that has not been met. -/
theorem Tracks.readLine_header (h : Tracks ρ f) (hne : s ≠ []) (hnew : s ∉ f.sections.keys)
    (lineno : ℕ) :
    ∃ ρ', ρ.readLine lineno ('[' :: (s ++ [']'])) = .ok ρ' ∧ ρ'.cursect = some s ∧
      Tracks ρ' (f.ensureSection s) := by
  have hstrip : strip isSpace ('[' :: (s ++ [']'])) = '[' :: (s ++ [']']) := by
    rw [Columns.strip_eq_self_iff]
    constructor
    · intro c hc
      cases hc
      decide
    · rw [← List.cons_append, List.getLast?_concat]
      intro c hc
      cases hc
      decide
  have hflush : ('[' :: (s ++ [']'])).takeWhile isSpace = [] :=
    List.takeWhile_cons_of_neg (by decide)
  have hread : ρ.readLine lineno ('[' :: (s ++ [']'])) =
      (ρ.setIndent 0).openSection lineno s := by
    unfold readLine
    dsimp only
    rw [hstrip, hflush, header?_bracketed hne, List.length_nil]
    have hcomment : isComment ('[' :: (s ++ [']'])) = false := rfl
    rw [hcomment, if_neg Bool.false_ne_true, if_neg (List.cons_ne_nil _ _)]
    cases ρ.cursect with
    | none => rfl
    | some s' => exact if_neg fun h => Nat.not_lt_zero _ h.2
  have hunmet : ¬ (s ∈ (ρ.setIndent 0).config.sections.keys ∧ s ∈ (ρ.setIndent 0).sectionsAdded) :=
    fun hmem => hnew (h.keys.1 ▸ hmem.1)
  rw [hread, openSection_eq, if_neg hunmet]
  refine ⟨_, rfl, rfl, ?_⟩
  have hfits := (h.fits.setIndent 0).openSection hne
    (by rw [openSection_eq, if_neg hunmet] : (ρ.setIndent 0).openSection lineno s = .ok _)
  refine tracks_of_own hfits h.errors (fun a k v hv => ?_) ?_ (fun a => ?_) fun a k => ?_
  · exact h.added a k v ((Config.own_ensureSection _ _ _ _).symm.trans hv)
  · simp only [setIndent, Config.keys_sections_ensureSection _ hne, h.keys.1]
  · simp only [setIndent, Config.ownKeys_ensureSection, h.keys.2]
  · simp only [setIndent, Config.own_ensureSection, h.own]

theorem Tracks.stored (h : Tracks ρ f) (hs : ρ.cursect = some s) (hlow : x.lower k = k)
    (hv : v.rdropWhile isSpace = v) : Tracks (ρ.stored s k v) (f.put s k v) := by
  have hsec := h.fits.cursect s hs
  have hsec' : f.HasSection s := h.hasSection.mpr hsec
  have hself : (ρ.config.put s k v).own s k = some v := by
    rw [Config.own_put hsec, hlow, if_pos ⟨rfl, rfl⟩]
  have hfits : (ρ.stored s k v).Fits := by
    refine ⟨fun a ha => ?_, fun a ha _ => ?_, fun a ha => ?_, fun a ha => ?_⟩
    · exact (Config.hasSection_put hsec _ _ a).mpr (h.fits.cursect a ha)
    · obtain rfl : s = a := Option.some.inj (hs.symm.trans ha)
      exact ⟨v, hself⟩
    · rw [Reader.stored, Config.keys_sections_put hsec]
      exact h.fits.sectionsAdded a ha
    · rcases List.mem_cons.mp ha with rfl | ha
      · exact ⟨v, hself⟩
      · obtain ⟨w, hw⟩ := h.fits.optionsAdded a ha
        exact exists_own_put hsec hw
  refine tracks_of_own hfits h.errors (fun a b w hw => ?_) ?_ (fun a => ?_) fun a b => ?_
  · rw [Reader.stored, Config.own_put hsec, hlow] at hw
    split at hw
    · next heq => rw [heq.1, heq.2]; exact List.mem_cons_self
    · exact List.mem_cons_of_mem _ (h.added a b w hw)
  · rw [Reader.stored, Config.keys_sections_put hsec, Config.keys_sections_put hsec', h.keys.1]
  · simp only [Reader.stored, Config.ownKeys_put hsec, Config.ownKeys_put hsec', h.keys.2]
  · simp only [Reader.stored, Config.own_put hsec, Config.own_put hsec', h.own]
    split
    · rw [Option.map_some, hv]
    · rfl

/-- The empty line behind a section goes to its last value, and is trimmed. -/
theorem Tracks.readLine_nil (h : Tracks ρ f) (lineno : ℕ) :
    ∃ ρ', ρ.readLine lineno [] = .ok ρ' ∧ Tracks ρ' f := by
  cases hs : ρ.cursect with
  | none =>
    refine ⟨ρ, ?_, h⟩
    unfold readLine
    rw [hs]
    rfl
  | some s =>
    have hread : ρ.readLine lineno [] = .ok (if ρ.optname = [] then ρ else ρ.append s []) := by
      unfold readLine
      rw [hs]
      rfl
    refine ⟨_, hread, ?_⟩
    split
    · exact h
    · next hopt =>
      have hsec := h.fits.cursect s hs
      obtain ⟨v, hv⟩ := h.fits.optname s hs hopt
      have hlow := Config.lower_of_own hv
      refine tracks_of_own (h.fits.append hs []) h.errors (fun a b w hw => ?_) ?_ (fun a => ?_)
        fun a b => ?_
      · rw [append, Config.own_put hsec, hlow] at hw
        split at hw
        · next heq => rw [heq.1, heq.2]; exact h.added s _ v hv
        · exact h.added a b w hw
      · rw [append, Config.keys_sections_put hsec, h.keys.1]
      · rw [append, Config.ownKeys_put hsec, hlow, h.keys.2]
        split
        · next has =>
          rw [has]
          refine Dict.appendKeys_of_subset fun b hb => ?_
          rw [List.mem_singleton.mp hb, Config.mem_ownKeys]
          exact ⟨v, hv⟩
        · rfl
      · rw [append, Config.own_put hsec, hlow, h.own, hv, Option.getD_some]
        split
        · next heq =>
          rw [heq.1, heq.2, hv, Option.map_some, Option.map_some,
            List.rdropWhile_concat_pos _ _ _ (by decide)]
        · rfl

/-- The options of a section. -/
theorem Tracks.readLines_items {ks : List Str} {rd : Str → Str} (h : Tracks ρ f)
    (hs : ρ.cursect = some s) (hnodup : ks.Nodup)
    (hks : ∀ k ∈ ks, IsItem k (rd k) ∧ x.lower k = k ∧ (rd k).rdropWhile isSpace = rd k)
    (hnew : ∀ k ∈ ks, f.own s k = none) (lineno : ℕ) :
    ∃ ρ', ρ.readLines lineno (ks.flatMap fun k => itemLines k (rd k)) = .ok ρ' ∧
      Tracks ρ' (f.putOptions rd s ks) := by
  induction ks generalizing ρ f lineno with
  | nil => exact ⟨ρ, rfl, h⟩
  | cons k ks ih =>
    obtain ⟨hitem, hlow, htrim⟩ := hks k List.mem_cons_self
    obtain ⟨hk, hnodup⟩ := List.nodup_cons.mp hnodup
    have hsec := h.fits.cursect s hs
    have hunmet : (s, k) ∉ ρ.optionsAdded := by
      intro hmem
      obtain ⟨v, hv⟩ := h.fits.optionsAdded _ hmem
      have hnone := hnew k List.mem_cons_self
      rw [h.own, hv] at hnone
      cases hnone
    have hstored := h.stored hs hlow htrim
    have hnew' : ∀ a ∈ ks, (f.put s k (rd k)).own s a = none := by
      intro a ha
      rw [Config.own_put (h.hasSection.mpr hsec), hlow, if_neg]
      · exact hnew a (List.mem_cons_of_mem _ ha)
      · rintro ⟨-, rfl⟩
        exact hk ha
    obtain ⟨ρ', hread, htracks⟩ := ih hstored hs hnodup
      (fun a ha => hks a (List.mem_cons_of_mem _ ha)) hnew' (lineno + (itemLines k (rd k)).length)
    refine ⟨ρ', ?_, htracks⟩
    rw [List.flatMap_cons, readLines_append, readLines_itemLines hs hsec hitem hlow hunmet]
    exact hread

theorem Tracks.readLines_section {ks : List Str} {rd : Str → Str} (h : Tracks ρ f) (hne : s ≠ [])
    (hsec : s ∉ f.sections.keys) (hnone : ∀ k, f.own s k = none) (hnodup : ks.Nodup)
    (hks : ∀ k ∈ ks, IsItem k (rd k) ∧ x.lower k = k ∧ (rd k).rdropWhile isSpace = rd k)
    (lineno : ℕ) :
    ∃ ρ', ρ.readLines lineno (sectionLines s (ks.map fun k => (k, rd k))) = .ok ρ' ∧
      Tracks ρ' ((f.ensureSection s).putOptions rd s ks) := by
  obtain ⟨ρ₁, hheader, hs, h₁⟩ := h.readLine_header hne hsec lineno
  have hnew : ∀ k ∈ ks, (f.ensureSection s).own s k = none := fun k _ =>
    (Config.own_ensureSection f s s k).trans (hnone k)
  obtain ⟨ρ₂, hitems, h₂⟩ := h₁.readLines_items hs hnodup hks hnew (lineno + 1)
  obtain ⟨ρ₃, hnil, h₃⟩ := h₂.readLine_nil
    (lineno + 1 + (ks.flatMap fun k => itemLines k (rd k)).length)
  refine ⟨ρ₃, ?_, h₃⟩
  rw [sectionLines, List.cons_append, readLines, hheader, Except.bind, readLines_append,
    List.flatMap_map, hitems, Except.bind, readLines, hnil]
  rfl

/-- The sections of a file. -/
theorem Tracks.readLines_sections {ss : List Str} {rd : Str → Str → Str} {keys : Str → List Str}
    (h : Tracks ρ f) (hss : ss.Nodup)
    (hnew : ∀ s ∈ ss, s ≠ [] ∧ s ∉ f.sections.keys ∧ ∀ k, f.own s k = none)
    (hkeys : ∀ s ∈ ss, (keys s).Nodup ∧ ∀ k ∈ keys s,
      IsItem k (rd s k) ∧ x.lower k = k ∧ (rd s k).rdropWhile isSpace = rd s k) (lineno : ℕ) :
    ∃ ρ', ρ.readLines lineno
        (ss.flatMap fun s => sectionLines s ((keys s).map fun k => (k, rd s k))) = .ok ρ' ∧
      Tracks ρ' (f.putSections rd keys ss) := by
  induction ss generalizing ρ f lineno with
  | nil => exact ⟨ρ, rfl, h⟩
  | cons s ss ih =>
    obtain ⟨hne, hsec, hnone⟩ := hnew s List.mem_cons_self
    obtain ⟨hnodup, hks⟩ := hkeys s List.mem_cons_self
    obtain ⟨hs, hss⟩ := List.nodup_cons.mp hss
    obtain ⟨ρ₁, hread, h₁⟩ := h.readLines_section hne hsec hnone hnodup hks lineno
    have hlow : ∀ k ∈ keys s, x.lower k = k := fun k hk => (hks k hk).2.1
    have hthere := Config.hasSection_ensureSection_self f hne
    have hnew' : ∀ a ∈ ss, a ≠ [] ∧
        a ∉ ((f.ensureSection s).putOptions (rd s) s (keys s)).sections.keys ∧
        ∀ k, ((f.ensureSection s).putOptions (rd s) s (keys s)).own a k = none := by
      intro a ha
      obtain ⟨hane, hasec, hanone⟩ := hnew a (List.mem_cons_of_mem _ ha)
      have has : a ≠ s := fun heq => hs (heq ▸ ha)
      refine ⟨hane, ?_, fun k => ?_⟩
      · rw [(Config.keys_putOptions (rd s) hthere hnodup hlow).1,
          Config.keys_sections_ensureSection f hne]
        split
        · exact hasec
        · rw [Dict.mem_appendKeys, List.mem_singleton]
          exact not_or.mpr ⟨hasec, has⟩
      · rw [Config.own_putOptions (rd s) hthere hlow, if_neg fun h => has h.1,
          Config.own_ensureSection]
        exact hanone k
    obtain ⟨ρ₂, hrest, h₂⟩ := ih h₁ hss hnew' (fun a ha => hkeys a (List.mem_cons_of_mem _ ha))
      (lineno + (sectionLines s ((keys s).map fun k => (k, rd s k))).length)
    refine ⟨ρ₂, ?_, h₂⟩
    rw [List.flatMap_cons, readLines_append, hread]
    exact hrest

end Reader

theorem putSections_written (c : Config x) :
    Config.putSections (fun s k => (c.own s k).getD []) c.ownKeys Config.empty (written c) = c := by
  have hall : Config.empty.overlay c = c := Config.empty_overlay c
  rw [Config.overlay] at hall
  rw [written]
  split
  · next hnil =>
    -- nothing is stored for the default section, which is always there
    have hdefault : (Config.empty : Config x).HasSection defaultSection := .inl rfl
    rw [Config.putSections, List.foldl_cons, hnil,
      Config.ensureSection_of_hasSection hdefault] at hall
    exact hall
  · exact hall

/-- **A writable configuration comes back**, in its order. -/
theorem parse_write {c : Config x} (h : Writable c) : parse x (write c) = .ok c := by
  have hnodup : (written c).Nodup := by
    rw [written]
    split
    · exact c.sections.nodup
    · exact Config.nodup_sectionList c
  have hnew : ∀ s ∈ written c, s ≠ [] ∧ s ∉ (Config.empty : Config x).sections.keys ∧
      ∀ k, (Config.empty : Config x).own s k = none := fun s hs =>
    ⟨Config.ne_nil_of_hasSection (mem_written hs), List.not_mem_nil, fun k => Config.own_empty s k⟩
  have hkeys : ∀ s ∈ written c, (c.ownKeys s).Nodup ∧ ∀ k ∈ c.ownKeys s,
      IsItem k ((c.own s k).getD []) ∧ x.lower k = k ∧
        ((c.own s k).getD []).rdropWhile isSpace = (c.own s k).getD [] := by
    refine fun s _ => ⟨Config.nodup_ownKeys c s, fun k hk => ?_⟩
    obtain ⟨v, hv⟩ := (Config.mem_ownKeys c s k).mp hk
    obtain ⟨hitem, htrim⟩ := h.items s k v hv
    rw [hv]
    exact ⟨hitem, Config.lower_of_own hv, htrim⟩
  obtain ⟨ρ, hread, htracks⟩ := Reader.tracks_start.readLines_sections hnodup hnew hkeys 1
  rw [parse, readText, textLines_write h]
  unfold items
  rw [hread, Except.bind, Reader.finish, if_pos htracks.errors, htracks.joined,
    putSections_written]

end Ini
end Dfuser
